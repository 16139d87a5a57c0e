import Mathlib.Algebra.Order.Field.Rat
import Mathlib.Data.List.Chain
import Mathlib.Tactic.Linarith

namespace LiteDB.TokenBucket

open List

/-- The token bucket (`auth_pool.py`) over exact numbers. -/
structure RateLimiter where
  rate : ℚ
  capacity : ℚ
  tokens : ℚ
  lastRefill : ℚ
  statsAllowed : Nat
  statsDenied : Nat

namespace RateLimiter

def init (rate capacity now : ℚ) : RateLimiter := ⟨rate, capacity, capacity, now, 0, 0⟩

def refill (r : RateLimiter) (now : ℚ) : RateLimiter :=
  { r with
    tokens := min r.capacity (r.tokens + (now - r.lastRefill) * r.rate)
    lastRefill := now }

def allow (r : RateLimiter) (now cost : ℚ) : Bool × RateLimiter :=
  let r := r.refill now
  if cost ≤ r.tokens then
    (true, { r with tokens := r.tokens - cost, statsAllowed := r.statsAllowed + 1 })
  else (false, { r with statsDenied := r.statsDenied + 1 })

def tokensAvailable (r : RateLimiter) (now : ℚ) : ℚ × RateLimiter :=
  ((r.refill now).tokens, r.refill now)

end RateLimiter

/-- The calls; each reads the clock once. -/
inductive Call where
  | allow (cost : ℚ)
  | tokensAvailable

def Call.cost : Call → ℚ
  | .allow cost => cost
  | .tokensAvailable => 0

/-- A call at a reading of the clock, with the cost that it admits. -/
def perform (r : RateLimiter) : ℚ × Call → ℚ × RateLimiter
  | (now, .allow cost) => (if (r.allow now cost).1 then cost else 0, (r.allow now cost).2)
  | (now, .tokensAvailable) => (0, (r.tokensAvailable now).2)

def run (r : RateLimiter) : List (ℚ × Call) → ℚ × RateLimiter
  | [] => (0, r)
  | c :: calls =>
      ((perform r c).1 + (run (perform r c).2 calls).1, (run (perform r c).2 calls).2)

/-- The tokens are within the capacity. -/
structure Within (r : RateLimiter) : Prop where
  rate : 0 ≤ r.rate
  nonneg : 0 ≤ r.tokens
  le : r.tokens ≤ r.capacity

variable {r : RateLimiter} {c : ℚ × Call} {calls : List (ℚ × Call)}

/-- The refilled bucket pays for what a call admits. -/
theorem perform_spec (h : Within r) (htime : r.lastRefill ≤ c.1) (hcost : 0 ≤ c.2.cost) :
    Within (perform r c).2 ∧ (perform r c).2.lastRefill = c.1 ∧
      (perform r c).2.rate = r.rate ∧ (perform r c).2.capacity = r.capacity ∧
      (perform r c).1 + (perform r c).2.tokens =
        min r.capacity (r.tokens + (c.1 - r.lastRefill) * r.rate) := by
  obtain ⟨now, call⟩ := c
  have hrefill : 0 ≤ (r.refill now).tokens := by
    have hnew : 0 ≤ (now - r.lastRefill) * r.rate := mul_nonneg (sub_nonneg.mpr htime) h.rate
    exact le_min (h.nonneg.trans h.le) (add_nonneg h.nonneg hnew)
  have hcapacity : (r.refill now).tokens ≤ r.capacity := min_le_left _ _
  cases call with
  | tokensAvailable => exact ⟨⟨h.rate, hrefill, hcapacity⟩, rfl, rfl, rfl, zero_add _⟩
  | allow cost =>
    change 0 ≤ cost at hcost
    simp only [perform, RateLimiter.allow]
    split
    · rename_i henough
      refine ⟨⟨h.rate, sub_nonneg.mpr henough, ?_⟩, rfl, rfl, rfl, ?_⟩
      · exact (sub_le_self _ hcost).trans hcapacity
      · exact add_sub_cancel _ _
    · exact ⟨⟨h.rate, hrefill, hcapacity⟩, rfl, rfl, rfl, zero_add _⟩

theorem run_spec (h : Within r) (htimes : (r.lastRefill :: calls.map Prod.fst).IsChain (· ≤ ·))
    (hcosts : ∀ c ∈ calls, 0 ≤ c.2.cost) :
    Within (run r calls).2 ∧
      (run r calls).2.lastRefill = (calls.map Prod.fst).getLast?.getD r.lastRefill ∧
      (run r calls).2.rate = r.rate ∧ (run r calls).2.capacity = r.capacity ∧
      (run r calls).1 + (run r calls).2.tokens ≤
        r.tokens + ((run r calls).2.lastRefill - r.lastRefill) * r.rate := by
  induction calls generalizing r with
  | nil => exact ⟨h, rfl, rfl, rfl, by simp [run]⟩
  | cons c calls ih =>
    obtain ⟨hcost, hcosts⟩ := forall_mem_cons.mp hcosts
    obtain ⟨htime, htimes⟩ := isChain_cons_cons.mp htimes
    obtain ⟨hnext, hlast, hrate, hcapacity, hpaid⟩ := perform_spec h htime hcost
    rw [← hlast] at htimes
    obtain ⟨hend, hlast', hrate', hcapacity', hpaid'⟩ := ih hnext htimes hcosts
    refine ⟨hend, hlast'.trans ?_, hrate'.trans hrate, hcapacity'.trans hcapacity, ?_⟩
    · rw [map_cons, getLast?_cons, Option.getD_some, hlast]
    · have hrefilled := hpaid.le.trans (min_le_right _ _)
      rw [hrate, hlast] at hpaid'
      simp only [run]
      linarith

/-- The count of tokens stays between zero and the capacity, and the cost admitted by any
calls in a row is at most the capacity and what is refilled between the first and the last. -/
theorem admitted_le_of_window {rate capacity start : ℚ} (hrate : 0 ≤ rate)
    (hcapacity : 0 ≤ capacity) {before window : List (ℚ × Call)}
    (htimes : (start :: (before ++ window).map Prod.fst).IsChain (· ≤ ·))
    (hcosts : ∀ c ∈ before ++ window, 0 ≤ c.2.cost) :
    (0 ≤ (run (.init rate capacity start) before).2.tokens ∧
      (run (.init rate capacity start) before).2.tokens ≤ capacity) ∧
    ∀ s ∈ (window.map Prod.fst).head?, ∀ t ∈ (window.map Prod.fst).getLast?,
      (run (run (.init rate capacity start) before).2 window).1 ≤ capacity + rate * (t - s) := by
  rw [map_append, ← cons_append, isChain_append] at htimes
  rw [forall_mem_append] at hcosts
  obtain ⟨hbefore, hwindow, hbetween⟩ := htimes
  have hinit : Within (.init rate capacity start) := ⟨hrate, hcapacity, le_rfl⟩
  obtain ⟨hwithin, hlast, hrate', hcapacity', -⟩ := run_spec hinit hbefore hcosts.1
  refine ⟨⟨hwithin.nonneg, hwithin.le.trans hcapacity'.le⟩, fun s hs t ht => ?_⟩
  cases window with
  | nil => cases hs
  | cons c window =>
    obtain rfl : c.1 = s := Option.some.inj hs
    obtain ⟨hcost, hcosts⟩ := forall_mem_cons.mp hcosts.2
    have htime := hbetween _ (getLast?_cons.trans (congrArg some hlast.symm)) c.1 rfl
    -- the first call leaves at most what the full bucket has after it
    obtain ⟨hfirst, hlast₁, hrate₁, -, hpaid₁⟩ := perform_spec hwithin htime hcost
    rw [map_cons, ← hlast₁] at hwindow
    obtain ⟨hend, hlast₂, -, -, hpaid₂⟩ := run_spec hfirst hwindow hcosts
    rw [map_cons, getLast?_cons] at ht
    have hfull := hpaid₁.le.trans (min_le_left _ _)
    have hnonneg := hend.nonneg
    rw [hlast₂, hlast₁, Option.some.inj ht, hrate₁, hrate'] at hpaid₂
    rw [hcapacity'] at hfull
    simp only [run]
    change _ ≤ _ + (t - c.1) * rate at hpaid₂
    change _ ≤ capacity at hfull
    linarith

/-- The bucket is empty after the first two calls and has refilled two tokens at the last. -/
theorem admitted_le_of_burst :
    (run (run (.init 1 2 0) [(1, .allow 1)]).2
      [(1, .allow 1), (2, .tokensAvailable), (3, .allow 2)]).1 = 3 ∧
    (run (run (.init 1 2 0) [(1, .allow 1)]).2
      [(1, .allow 1), (2, .tokensAvailable), (3, .allow 2)]).1 ≤ 2 + 1 * (3 - 1) :=
  ⟨by decide +kernel, (admitted_le_of_window (by decide) (by decide) (by decide +kernel)
    (by decide +kernel)).2 1 rfl 3 rfl⟩

end LiteDB.TokenBucket
