import LiteDB.JavaStrings

namespace LiteDB.JavaJson

open JavaStrings
open Lexicographic (fixedDigits)
open List Option

/-- Floating-point numbers, of which only the texts matter. -/
structure Doubles where
  Double : Type
  toString : Double → JavaString
  parseDouble : JavaString → Option Double

/-- What `Json.java` encodes and parses. -/
inductive Value (D : Doubles) where
  | null
  | bool (b : Bool)
  | long (n : Int64)
  | double (d : D.Double)
  | string (s : JavaString)
  | list (items : List (Value D))
  | map (entries : List (JavaString × Value D))

variable {D : Doubles}

def writeUnit (u : JavaChar) : JavaString :=
  if u = ch '"' then [ch '\\', ch '"']
  else if u = ch '\\' then [ch '\\', ch '\\']
  else if u = ch '\n' then [ch '\\', ch 'n']
  else if u = ch '\r' then [ch '\\', ch 'r']
  else if u = ch '\t' then [ch '\\', ch 't']
  else if u.val < 0x20 then [ch '\\', ch 'u'] ++ (fixedDigits Nat.digitChar 16 4 u.val).map ch
  else [u]

def writeString (s : JavaString) : JavaString := ch '"' :: s.flatMap writeUnit ++ [ch '"']

mutual

def write : Value D → JavaString
  | .null => units "null".toList
  | .bool true => units "true".toList
  | .bool false => units "false".toList
  | .long n => decimal n.toInt
  | .double d => D.toString d
  | .string s => writeString s
  | .list items => ch '[' :: writeItems true items ++ [ch ']']
  | .map entries => ch '{' :: writeEntries true entries ++ [ch '}']

def writeItems (first : Bool) : List (Value D) → JavaString
  | [] => []
  | item :: items => (if first then [] else [ch ',']) ++ write item ++ writeItems false items

def writeEntries (first : Bool) : List (JavaString × Value D) → JavaString
  | [] => []
  | (key, item) :: entries =>
      (if first then [] else [ch ',']) ++ writeString key ++ [ch ':'] ++ write item ++
        writeEntries false entries

end

def encode (v : Value D) : JavaString := write v

section Parser

/-- `Character.isWhitespace(u)`. -/
def isWhitespace (u : JavaChar) : Bool :=
  (0x9 ≤ u.val && u.val ≤ 0xD) || (0x1C ≤ u.val && u.val ≤ 0x20) || u.val == 0x1680 ||
    (0x2000 ≤ u.val && u.val ≤ 0x200A && u.val != 0x2007) || u.val == 0x2028 ||
    u.val == 0x2029 || u.val == 0x205F || u.val == 0x3000

variable (rt : Runtime) (s : JavaString)

def skipWs (i : Nat) : Nat := i + ((s.drop i).takeWhile isWhitespace).length

/-- `Character.digit(u, 16)`. -/
def hexDigit (u : JavaChar) : Option Nat :=
  if (ch 'a').val ≤ u.val ∧ u.val ≤ (ch 'f').val then some (u.val - (ch 'a').val + 10)
  else if (ch 'A').val ≤ u.val ∧ u.val ≤ (ch 'F').val then some (u.val - (ch 'A').val + 10)
  else if 0xFF21 ≤ u.val ∧ u.val ≤ 0xFF26 then some (u.val - 0xFF21 + 10)
  else if 0xFF41 ≤ u.val ∧ u.val ≤ 0xFF46 then some (u.val - 0xFF41 + 10)
  else rt.digit u

def parseHexDigits (digits : JavaString) : Option Int :=
  if digits = [] then none
  else (digits.foldlM (fun n u => (hexDigit rt u).map fun d => n * 16 + d) 0).map Int.ofNat

/-- `(char) Integer.parseInt(digits, 16)` for four units. -/
def parseHexUnit (digits : JavaString) : Option JavaChar :=
  let n := match digits with
    | [] => none
    | u :: rest =>
        if u = ch '-' then (parseHexDigits rt rest).map (- ·)
        else parseHexDigits rt (if u = ch '+' then rest else digits)
  n.map fun n => Fin.ofNat 65536 (n % 65536).toNat

/-- The unit that an escape stands for, and the index behind it. -/
def escape (i : Nat) : Option (JavaChar × Nat) :=
  s[i]?.bind fun e =>
    if e = ch 'n' then some (ch '\n', i + 1)
    else if e = ch 'r' then some (ch '\r', i + 1)
    else if e = ch 't' then some (ch '\t', i + 1)
    else if e = ch 'b' then some (Fin.ofNat 65536 8, i + 1)
    else if e = ch 'f' then some (Fin.ofNat 65536 12, i + 1)
    else if e = ch 'u' then
      ((substring s (i + 1) (i + 5)).bind (parseHexUnit rt)).map fun u => (u, i + 5)
    else some (e, i + 1)

/-- The loop of `string`. Every turn takes a unit of the text. -/
def stringLoop : Nat → Nat → JavaString → Option (JavaString × Nat)
  | 0, _, _ => none
  | fuel + 1, i, sb =>
      s[i]?.bind fun c =>
        if c = ch '"' then some (sb, i + 1)
        else if c = ch '\\' then
          (escape rt s (i + 1)).bind fun e => stringLoop fuel e.2 (sb ++ [e.1])
        else stringLoop fuel (i + 1) (sb ++ [c])

def string (i : Nat) : Option (JavaString × Nat) := stringLoop rt s (s.length + 1) (i + 1) []

def isFraction (u : JavaChar) : Bool := u = ch '.' || u = ch 'e' || u = ch 'E'

def isNumber (u : JavaChar) : Bool :=
  u = ch '-' || u = ch '+' || ((ch '0').val ≤ u.val && u.val ≤ (ch '9').val) || isFraction u

def number (i : Nat) : Option (Value D × Nat) :=
  let num := (s.drop i).takeWhile isNumber
  let v := if num.any isFraction then (D.parseDouble num).map Value.double
    else (parseLong rt num).map fun n => .long (Int64.ofInt n)
  v.map (·, i + num.length)

/-- `m.put(key, v)`. A key that is there keeps its place. -/
def put (m : List (JavaString × Value D)) (key : JavaString) (v : Value D) :
    List (JavaString × Value D) :=
  if key ∈ m.map Prod.fst then m.map fun e => if e.1 = key then (key, v) else e
  else m ++ [(key, v)]

mutual

/-- Between two values at least one unit of the text is taken, so that twice the length of
the text is fuel enough. -/
def value : Nat → Nat → Option (Value D × Nat)
  | 0, _ => none
  | fuel + 1, i =>
      let i := skipWs s i
      s[i]?.bind fun c =>
        if c = ch '{' then
          let i := skipWs s (i + 1)
          s[i]?.bind fun c => if c = ch '}' then some (.map [], i + 1) else members fuel i []
        else if c = ch '[' then
          let i := skipWs s (i + 1)
          s[i]?.bind fun c => if c = ch ']' then some (.list [], i + 1) else elements fuel i []
        else if c = ch '"' then (string rt s i).map fun t => (.string t.1, t.2)
        else if c = ch 't' then some (.bool true, i + 4)
        else if c = ch 'f' then some (.bool false, i + 5)
        else if c = ch 'n' then some (.null, i + 4)
        else number rt s i

def members : Nat → Nat → List (JavaString × Value D) → Option (Value D × Nat)
  | 0, _, _ => none
  | fuel + 1, i, m =>
      (string rt s (skipWs s i)).bind fun key =>
        (value fuel (skipWs s key.2 + 1)).bind fun v =>
          let i := skipWs s v.2
          s[i]?.bind fun c =>
            if c = ch '}' then some (.map (put m key.1 v.1), i + 1)
            else members fuel (i + 1) (put m key.1 v.1)

def elements : Nat → Nat → List (Value D) → Option (Value D × Nat)
  | 0, _, _ => none
  | fuel + 1, i, list =>
      (value fuel i).bind fun v =>
        let i := skipWs s v.2
        s[i]?.bind fun c =>
          if c = ch ']' then some (.list (list ++ [v.1]), i + 1)
          else elements fuel (i + 1) (list ++ [v.1])

end

/-- The value of a text, and the index of the parser at the end. -/
def parse : Option (Value D × Nat) :=
  (value rt s (2 * s.length + 1) 0).map fun v => (v.1, skipWs s v.2)

end Parser

mutual

/-- The tokens of a value, with whole strings and numbers as tokens. -/
def tokens : Value D → List JavaString
  | .list items => [ch '['] :: itemTokens true items ++ [[ch ']']]
  | .map entries => [ch '{'] :: entryTokens true entries ++ [[ch '}']]
  | v => [write v]

def itemTokens (first : Bool) : List (Value D) → List JavaString
  | [] => []
  | item :: items => (if first then [] else [[ch ',']]) ++ tokens item ++ itemTokens false items

def entryTokens (first : Bool) : List (JavaString × Value D) → List JavaString
  | [] => []
  | (key, item) :: entries =>
      (if first then [] else [[ch ',']]) ++ [writeString key, [ch ':']] ++ tokens item ++
        entryTokens false entries

end

mutual

theorem flatten_tokens : ∀ v : Value D, (tokens v).flatten = write v
  | .list items => by simp [tokens, write, flatten_itemTokens true items]
  | .map entries => by simp [tokens, write, flatten_entryTokens true entries]
  | .null => by simp [tokens]
  | .bool b => by simp [tokens]
  | .long n => by simp [tokens]
  | .double d => by simp [tokens]
  | .string s => by simp [tokens]

theorem flatten_itemTokens : ∀ (first : Bool) (items : List (Value D)),
    (itemTokens first items).flatten = writeItems first items
  | _, [] => by simp [itemTokens, writeItems]
  | first, item :: items => by
      cases first <;>
        simp [itemTokens, writeItems, flatten_tokens item, flatten_itemTokens false items]

theorem flatten_entryTokens : ∀ (first : Bool) (entries : List (JavaString × Value D)),
    (entryTokens first entries).flatten = writeEntries first entries
  | _, [] => by simp [entryTokens, writeEntries]
  | first, (key, item) :: entries => by
      cases first <;>
        simp [entryTokens, writeEntries, flatten_tokens item, flatten_entryTokens false entries]

end

def IsSpace (u : JavaChar) : Prop := u = ch ' ' ∨ u = ch '\t' ∨ u = ch '\n' ∨ u = ch '\r'

/-- A text with any whitespace before, between and behind its tokens. -/
inductive Spaced : List JavaString → JavaString → Prop where
  | nil {w : JavaString} (hw : ∀ u ∈ w, IsSpace u) : Spaced [] w
  | cons {w t text : JavaString} {toks : List JavaString} (hw : ∀ u ∈ w, IsSpace u)
      (h : Spaced toks text) : Spaced (t :: toks) (w ++ (t ++ text))

theorem spaced_flatten (toks : List JavaString) : Spaced toks toks.flatten := by
  induction toks with
  | nil => exact .nil (by simp)
  | cons t toks ih => exact .cons (w := []) (by simp) ih

section Scanning

variable {rt : Runtime} {s : JavaString} {i : Nat} {toks : List JavaString} {u : JavaChar}
  {rest : JavaString}

theorem isWhitespace_of_isSpace (h : IsSpace u) : isWhitespace u = true := by
  rcases h with rfl | rfl | rfl | rfl <;> decide

theorem drop_length_add {a b : JavaString} (h : s.drop i = a ++ b) : s.drop (i + a.length) = b := by
  rw [← drop_drop, h, drop_left]

theorem getElem?_of_drop (h : s.drop i = u :: rest) : s[i]? = some u := by
  rw [← head?_drop, h]
  rfl

theorem drop_succ (h : s.drop i = u :: rest) : s.drop (i + 1) = rest :=
  drop_length_add (a := [u]) h

theorem lt_length_of_drop (h : s.drop i = u :: rest) : i < s.length := by
  by_contra hle
  rw [drop_eq_nil_of_le (by omega)] at h
  exact absurd h (by simp)

theorem drop_skipWs {t : JavaString} (hu : isWhitespace u = false)
    (h : Spaced ((u :: t) :: toks) (s.drop i)) :
    ∃ text, s.drop (skipWs s i) = u :: (t ++ text) ∧ Spaced toks text := by
  generalize hdrop : s.drop i = rest at h
  cases h with
  | @cons w _ text _ hw htext =>
    have htake : (s.drop i).takeWhile isWhitespace = w := by
      rw [hdrop, takeWhile_append_of_pos fun u hu => isWhitespace_of_isSpace (hw u hu)]
      simp [hu]
    refine ⟨text, ?_, htext⟩
    rw [skipWs, htake]
    exact drop_length_add hdrop

theorem substring_of_drop {part : JavaString} {n : Nat} (h : s.drop i = part ++ rest)
    (hpart : part ≠ []) (hn : n = part.length) : substring s i (i + n) = some part := by
  obtain ⟨u, part', rfl⟩ := exists_cons_of_ne_nil hpart
  have hi := lt_length_of_drop h
  have hsplit : s = s.take i ++ (u :: part' ++ rest) := by rw [← h, take_append_drop]
  have hlength : (s.take i).length = i := length_take_of_le hi.le
  have hcut := substring_append (s.take i) (u :: part') rest hlength.symm
    (show i + n = _ by rw [length_append, hlength, hn])
  rwa [← hsplit] at hcut

end Scanning

section Strings

variable {rt : Runtime} {s : JavaString} {i fuel : Nat} {sb rest : JavaString}

theorem hexDigit_digitChar {d : Nat} (hd : d < 16) :
    hexDigit rt (ch (Nat.digitChar d)) = some d := by
  by_cases hten : d < 10
  · have hdigit : (Nat.digitChar d).isDigit = true ∧ (Nat.digitChar d).toNat - '0'.toNat = d ∧
        (ch (Nat.digitChar d)).val < (ch 'A').val := by
      have hall : ∀ d < 10, (Nat.digitChar d).isDigit = true ∧
        (Nat.digitChar d).toNat - '0'.toNat = d ∧
        (ch (Nat.digitChar d)).val < (ch 'A').val := by decide
      exact hall d hten
    have hA : (ch 'A').val = 65 := by decide
    have ha : (ch 'a').val = 97 := by decide
    rw [hexDigit, if_neg (by omega), if_neg (by omega), if_neg (by omega), if_neg (by omega), ch,
      rt.digit_ascii _ hdigit.1, hdigit.2.1]
  · have hall : ∀ d < 16, 10 ≤ d → (ch 'a').val ≤ (ch (Nat.digitChar d)).val ∧
        (ch (Nat.digitChar d)).val ≤ (ch 'f').val ∧
        (ch (Nat.digitChar d)).val - (ch 'a').val + 10 = d := by decide
    obtain ⟨hlo, hhi, hvalue⟩ := hall d hd (by omega)
    rw [hexDigit, if_pos ⟨hlo, hhi⟩, hvalue]

variable {u : JavaChar}

theorem parseHexUnit_fixedDigits (hu : u.val < 0x20) :
    parseHexUnit rt ((fixedDigits Nat.digitChar 16 4 u.val).map ch) = some u := by
  have hall : ∀ n < 0x20, fixedDigits Nat.digitChar 16 4 n =
      [Nat.digitChar 0, Nat.digitChar 0, Nat.digitChar (n / 16), Nat.digitChar (n % 16)] := by
    decide
  have hminus : ch (Nat.digitChar 0) ≠ ch '-' := by decide
  have hplus : ch (Nat.digitChar 0) ≠ ch '+' := by decide
  have hvalue : u.val / 16 * 16 + u.val % 16 = u.val := by omega
  have hparse : parseHexDigits rt ((fixedDigits Nat.digitChar 16 4 u.val).map ch) =
      some (u.val : Int) := by
    rw [hall _ hu]
    simp [parseHexDigits, hexDigit_digitChar, Nat.mod_lt, hvalue,
      hexDigit_digitChar (show u.val / 16 < 16 by omega)]
  rw [hall _ hu] at hparse ⊢
  simp only [map_cons, map_nil] at hparse ⊢
  have hunit : Fin.ofNat 65536 ((u.val : Int) % 65536).toNat = u := by
    apply Fin.ext
    have hlt := u.isLt
    simp only [Fin.ofNat]
    omega
  simp only [parseHexUnit, if_neg hminus, if_neg hplus, hparse, map_some, hunit]

variable (rt) in
theorem escape_of_drop (h : s.drop i = writeUnit u ++ rest) (hu : writeUnit u ≠ [u]) :
    s[i]? = some (ch '\\') ∧ escape rt s (i + 1) = some (u, i + (writeUnit u).length) := by
  unfold writeUnit at h hu ⊢
  split_ifs at h hu ⊢ with h1 h2 h3 h4 h5 h6
  · exact ⟨getElem?_of_drop h, by rw [h1, escape, getElem?_of_drop (drop_succ h)]; rfl⟩
  · exact ⟨getElem?_of_drop h, by rw [h2, escape, getElem?_of_drop (drop_succ h)]; rfl⟩
  · exact ⟨getElem?_of_drop h, by rw [h3, escape, getElem?_of_drop (drop_succ h)]; rfl⟩
  · exact ⟨getElem?_of_drop h, by rw [h4, escape, getElem?_of_drop (drop_succ h)]; rfl⟩
  · exact ⟨getElem?_of_drop h, by rw [h5, escape, getElem?_of_drop (drop_succ h)]; rfl⟩
  · have hmark := drop_succ h
    have hdigits : substring s (i + 1 + 1) (i + 1 + 1 + 4) =
        some ((fixedDigits Nat.digitChar 16 4 u.val).map ch) :=
      substring_of_drop (drop_succ hmark) (by simp [fixedDigits]) (by simp)
    have hescape : escape rt s (i + 1) =
        ((substring s (i + 1 + 1) (i + 1 + 5)).bind (parseHexUnit rt)).map (·, i + 1 + 5) := by
      rw [escape, getElem?_of_drop hmark]
      rfl
    refine ⟨getElem?_of_drop h, ?_⟩
    rw [hescape, hdigits, bind_some, parseHexUnit_fixedDigits h6]
    simp
  · exact absurd rfl hu

theorem stringLoop_writeUnit (h : s.drop i = writeUnit u ++ rest) :
    stringLoop rt s (fuel + 1) i sb =
      stringLoop rt s fuel (i + (writeUnit u).length) (sb ++ [u]) := by
  by_cases hu : writeUnit u = [u]
  · have hquote : u ≠ ch '"' := by
      rintro rfl
      exact absurd hu (by decide)
    have hback : u ≠ ch '\\' := by
      rintro rfl
      exact absurd hu (by decide)
    rw [hu] at h ⊢
    rw [stringLoop, getElem?_of_drop h]
    simp only [bind_some, if_neg hquote, if_neg hback]
    rfl
  · obtain ⟨hback, hescape⟩ := escape_of_drop rt h hu
    have hquote : ch '\\' ≠ ch '"' := by decide
    rw [stringLoop, hback]
    simp only [bind_some, if_neg hquote, if_true, hescape]

variable {t : JavaString}

theorem stringLoop_flatMap (h : s.drop i = t.flatMap writeUnit ++ ch '"' :: rest)
    (hfuel : t.length < fuel) :
    stringLoop rt s fuel i sb = some (sb ++ t, i + (t.flatMap writeUnit).length + 1) := by
  induction t generalizing i sb fuel with
  | nil =>
    obtain ⟨fuel, rfl⟩ : ∃ n, fuel = n + 1 := ⟨fuel - 1, by omega⟩
    rw [stringLoop, getElem?_of_drop h]
    simp
  | cons u t ih =>
    obtain ⟨fuel, rfl⟩ : ∃ n, fuel = n + 1 := ⟨fuel - 1, by omega⟩
    rw [flatMap_cons, append_assoc] at h
    rw [stringLoop_writeUnit h, ih (drop_length_add h) (by simpa using hfuel), flatMap_cons]
    simp [Nat.add_assoc]

theorem length_le_flatMap_writeUnit (t : JavaString) : t.length ≤ (t.flatMap writeUnit).length := by
  induction t with
  | nil => simp
  | cons u t ih =>
    have hunit : 0 < (writeUnit u).length := by
      unfold writeUnit
      split_ifs <;> simp
    rw [flatMap_cons, length_append, length_cons]
    omega

theorem string_writeString (h : s.drop i = writeString t ++ rest) :
    string rt s i = some (t, i + (writeString t).length) := by
  have hsplit : writeString t ++ rest = ch '"' :: (t.flatMap writeUnit ++ ch '"' :: rest) := by
    simp [writeString]
  rw [hsplit] at h
  have hfuel : t.length < s.length + 1 := by
    have htext := congrArg List.length h
    have hlength := length_le_flatMap_writeUnit t
    simp only [length_drop, length_cons, length_append] at htext
    omega
  rw [string, stringLoop_flatMap (drop_succ h) hfuel, writeString]
  simp only [nil_append, cons_append, length_cons, length_append,
    length_nil, Option.some.injEq, Prod.mk.injEq, true_and]
  omega

end Strings

section Values

mutual

/-- Values without floating-point numbers whose maps have distinct keys. -/
def Plain : Value D → Prop
  | .double _ => False
  | .list items => PlainItems items
  | .map entries => (entries.map Prod.fst).Nodup ∧ PlainEntries entries
  | _ => True

def PlainItems : List (Value D) → Prop
  | [] => True
  | item :: items => Plain item ∧ PlainItems items

def PlainEntries : List (JavaString × Value D) → Prop
  | [] => True
  | (_, item) :: entries => Plain item ∧ PlainEntries entries

end

variable {rt : Runtime} {s : JavaString} {i fuel : Nat} {toks : List JavaString}

/-- What may stand behind a value. -/
def Closing (toks : List JavaString) : Prop :=
  ∀ t ∈ toks.head?, t = [ch ','] ∨ t = [ch ']'] ∨ t = [ch '}']

theorem isNumber_of_closing {text : JavaString} (htoks : Closing toks) (h : Spaced toks text) :
    ∀ u ∈ text.head?, isNumber u = false := by
  have hspace : ∀ u, IsSpace u → isNumber u = false := by
    rintro u (rfl | rfl | rfl | rfl) <;> decide
  cases h with
  | nil hw => exact fun u hu => hspace u (hw u (mem_of_head? hu))
  | @cons w t text _ hw _ =>
    cases w with
    | cons v w =>
      intro u hu
      obtain rfl : v = u := by simpa using hu
      exact hspace v (hw v mem_cons_self)
    | nil =>
      intro u hu
      rcases htoks t rfl with rfl | rfl | rfl
      · obtain rfl : ch ',' = u := by simpa using hu
        decide
      · obtain rfl : ch ']' = u := by simpa using hu
        decide
      · obtain rfl : ch '}' = u := by simpa using hu
        decide

/-- The units that select another branch of `value` than `number`, or end a container. -/
def marks : List JavaChar :=
  [ch '{', ch '[', ch '"', ch 't', ch 'f', ch 'n', ch ']', ch '}']

/-- A unit that can only be a part of an integer. -/
structure Numeric (u : JavaChar) : Prop where
  number : isNumber u = true
  fraction : isFraction u = false
  whitespace : isWhitespace u = false
  mark : u ∉ marks

variable {u : JavaChar} {t : JavaString} {v : Value D}

theorem numeric_of_mem_decimal {n : Int} (h : u ∈ decimal n) : Numeric u := by
  have hval : ∀ n < 128, n = '-'.toNat ∨ ('0'.toNat ≤ n ∧ n ≤ '9'.toNat) →
      isNumber (Fin.ofNat 65536 n) = true ∧ isFraction (Fin.ofNat 65536 n) = false ∧
      isWhitespace (Fin.ofNat 65536 n) = false ∧ Fin.ofNat 65536 n ∉ marks := by decide
  have h9 : '9'.toNat = 57 := by decide
  have hminus : '-'.toNat = 45 := by decide
  have hu := of_mem_decimal h
  have hsame : Fin.ofNat 65536 u.val = u := by
    apply Fin.ext
    exact Nat.mod_eq_of_lt u.isLt
  obtain ⟨h1, h2, h3, h4⟩ := hval u.val (by omega) hu
  rw [hsame] at h1 h2 h3 h4
  exact ⟨h1, h2, h3, h4⟩

theorem number_decimal {n : Int64} {rest : JavaString} (h : s.drop i = decimal n.toInt ++ rest)
    (hrest : ∀ u ∈ rest.head?, isNumber u = false) :
    number (D := D) rt s i = some (.long n, i + (decimal n.toInt).length) := by
  have hunit : ∀ u ∈ decimal n.toInt, Numeric u := fun u hu => numeric_of_mem_decimal hu
  have htake : (s.drop i).takeWhile isNumber = decimal n.toInt := by
    rw [h, takeWhile_append_of_pos fun u hu => (hunit u hu).number]
    cases rest with
    | nil => simp
    | cons u rest => simp [hrest u rfl]
  have hany : (decimal n.toInt).any isFraction = false := by
    simpa using fun u hu => (hunit u hu).fraction
  have hlo := n.le_toInt
  have hhi := n.toInt_lt
  simp only [number, htake, hany, Bool.false_eq_true, if_false,
    parseLong_decimal hlo hhi, map_some, Int64.ofInt_toInt]

theorem le_skipWs (s : JavaString) (i : Nat) : i ≤ skipWs s i := Nat.le_add_right _ _

def Reads (s : JavaString) (toks : List JavaString) (i : Nat)
    (result : Option (Value D × Nat)) (v : Value D) : Prop :=
  ∃ j, result = some (v, j) ∧ (i < j ∧ j ≤ s.length) ∧ Spaced toks (s.drop j)

theorem reads_token (hu : isWhitespace u = false) (h : Spaced ((u :: t) :: toks) (s.drop i))
    (hvalue : ∀ k text, skipWs s i = k → s.drop k = u :: (t ++ text) → Spaced toks text →
      value rt s (fuel + 1) i = some (v, k + (t.length + 1))) :
    Reads s toks i (value rt s (fuel + 1) i) v := by
  obtain ⟨text, hdrop, htext⟩ := drop_skipWs hu h
  have hrest : s.drop (skipWs s i + (t.length + 1)) = text :=
    drop_length_add (a := u :: t) hdrop
  have hle := le_skipWs s i
  have hlength := congrArg List.length hdrop
  have hlt := lt_length_of_drop hdrop
  simp only [length_drop, length_cons, length_append] at hlength
  exact ⟨_, hvalue _ text rfl hdrop htext, by omega, hrest ▸ htext⟩

theorem reads_null (h : Spaced (tokens (.null : Value D) ++ toks) (s.drop i)) :
    Reads s toks i (value rt s (fuel + 1) i) (.null : Value D) := by
  refine reads_token (u := ch 'n') (t := units "ull".toList) (by decide) h ?_
  rintro _ text rfl hdrop -
  rw [value, getElem?_of_drop hdrop]
  rfl

theorem reads_bool (b : Bool) (h : Spaced (tokens (.bool b : Value D) ++ toks) (s.drop i)) :
    Reads s toks i (value rt s (fuel + 1) i) (.bool b : Value D) := by
  cases b with
  | true =>
    refine reads_token (u := ch 't') (t := units "rue".toList) (by decide) h ?_
    rintro _ text rfl hdrop -
    rw [value, getElem?_of_drop hdrop]
    rfl
  | false =>
    refine reads_token (u := ch 'f') (t := units "alse".toList) (by decide) h ?_
    rintro _ text rfl hdrop -
    rw [value, getElem?_of_drop hdrop]
    rfl

theorem reads_string (t : JavaString)
    (h : Spaced (tokens (.string t : Value D) ++ toks) (s.drop i)) :
    Reads s toks i (value rt s (fuel + 1) i) (.string t : Value D) := by
  refine reads_token (u := ch '"') (t := t.flatMap writeUnit ++ [ch '"']) (by decide) h ?_
  rintro _ text rfl hdrop -
  have hsplit : s.drop (skipWs s i) = writeString t ++ text := by
    simpa [writeString] using hdrop
  rw [value, getElem?_of_drop hdrop]
  show (string rt s (skipWs s i)).map _ = _
  rw [string_writeString hsplit]
  rfl

theorem reads_long (n : Int64) (htoks : Closing toks)
    (h : Spaced (tokens (.long n : Value D) ++ toks) (s.drop i)) :
    Reads s toks i (value rt s (fuel + 1) i) (.long n : Value D) := by
  obtain ⟨u, t, hut⟩ := exists_cons_of_ne_nil (decimal_ne_nil n.toInt)
  have hu : Numeric u := numeric_of_mem_decimal (n := n.toInt) (by simp [hut])
  have hmark := hu.mark
  simp only [marks, mem_cons, not_mem_nil, or_false, not_or] at hmark
  obtain ⟨h1, h2, h3, h4, h5, h6, -⟩ := hmark
  have htokens : tokens (.long n : Value D) = [u :: t] := by simp [tokens, write, hut]
  rw [htokens] at h
  refine reads_token hu.whitespace h ?_
  rintro _ text rfl hdrop htext
  have hnumber : number (D := D) rt s (skipWs s i) =
      some (.long n, skipWs s i + (decimal n.toInt).length) :=
    number_decimal (by rw [hut]; exact hdrop) (isNumber_of_closing htoks htext)
  rw [value, getElem?_of_drop hdrop]
  simp only [bind_some, if_neg h1, if_neg h2, if_neg h3, if_neg h4, if_neg h5, if_neg h6]
  rw [hnumber, hut]
  rfl

theorem tokens_eq_cons (hv : Plain v) : ∃ u t rest, tokens v = (u :: t) :: rest ∧
    isWhitespace u = false ∧ u ≠ ch ']' := by
  cases v with
  | null => exact ⟨ch 'n', units "ull".toList, [], rfl, by decide, by decide⟩
  | bool b =>
    cases b with
    | true => exact ⟨ch 't', units "rue".toList, [], rfl, by decide, by decide⟩
    | false => exact ⟨ch 'f', units "alse".toList, [], rfl, by decide, by decide⟩
  | long n =>
    obtain ⟨u, t, hut⟩ := exists_cons_of_ne_nil (decimal_ne_nil n.toInt)
    have hu : Numeric u := numeric_of_mem_decimal (n := n.toInt) (by simp [hut])
    refine ⟨u, t, [], by simp [tokens, write, hut], hu.whitespace, ?_⟩
    rintro rfl
    exact hu.mark (by decide)
  | double d => exact absurd hv (by simp [Plain])
  | string t => exact ⟨ch '"', _, [], rfl, by decide, by decide⟩
  | list items => exact ⟨ch '[', [], _, rfl, by decide, by decide⟩
  | map entries => exact ⟨ch '{', [], _, rfl, by decide, by decide⟩

theorem spaced_skipWs (hu : isWhitespace u = false) (h : Spaced ((u :: t) :: toks) (s.drop i)) :
    s[skipWs s i]? = some u ∧ Spaced ((u :: t) :: toks) (s.drop (skipWs s i)) := by
  obtain ⟨text, hdrop, htext⟩ := drop_skipWs hu h
  refine ⟨getElem?_of_drop hdrop, ?_⟩
  rw [hdrop]
  exact .cons (w := []) (by simp) htext

theorem spaced_mark (hu : isWhitespace u = false) (h : Spaced ([u] :: toks) (s.drop i)) :
    s[skipWs s i]? = some u ∧ Spaced toks (s.drop (skipWs s i + 1)) ∧ skipWs s i < s.length := by
  obtain ⟨text, hdrop, htext⟩ := drop_skipWs hu h
  exact ⟨getElem?_of_drop hdrop, (drop_succ hdrop).symm ▸ htext, lt_length_of_drop hdrop⟩

theorem put_of_not_mem {m : List (JavaString × Value D)} {key : JavaString}
    (h : key ∉ m.map Prod.fst) : put m key v = m ++ [(key, v)] := if_neg h

theorem tokens_list_append (items : List (Value D)) (toks : List JavaString) :
    tokens (.list items) ++ toks = [ch '['] :: (itemTokens true items ++ [ch ']'] :: toks) := by
  simp [tokens]

theorem tokens_map_append (entries : List (JavaString × Value D)) (toks : List JavaString) :
    tokens (.map entries) ++ toks = [ch '{'] :: (entryTokens true entries ++ [ch '}'] :: toks) := by
  simp [tokens]

theorem value_of_bracket (hopen : s[skipWs s i]? = some (ch '['))
    (hnext : s[skipWs s (skipWs s i + 1)]? = some u) :
    value (D := D) rt s (fuel + 1) i =
      if u = ch ']' then some (.list [], skipWs s (skipWs s i + 1) + 1)
      else elements rt s fuel (skipWs s (skipWs s i + 1)) [] := by
  rw [value, hopen]
  show (s[skipWs s (skipWs s i + 1)]?).bind _ = _
  rw [hnext]
  rfl

theorem value_of_brace (hopen : s[skipWs s i]? = some (ch '{'))
    (hnext : s[skipWs s (skipWs s i + 1)]? = some u) :
    value (D := D) rt s (fuel + 1) i =
      if u = ch '}' then some (.map [], skipWs s (skipWs s i + 1) + 1)
      else members rt s fuel (skipWs s (skipWs s i + 1)) [] := by
  rw [value, hopen]
  show (s[skipWs s (skipWs s i + 1)]?).bind _ = _
  rw [hnext]
  rfl

theorem closing_itemTokens (items : List (Value D)) (toks : List JavaString) :
    Closing (itemTokens false items ++ [ch ']'] :: toks) := by
  intro t ht
  cases items with
  | nil => exact .inr (.inl (by simpa [itemTokens] using ht.symm))
  | cons item items => exact .inl (by simpa [itemTokens] using ht.symm)

theorem closing_entryTokens (entries : List (JavaString × Value D)) (toks : List JavaString) :
    Closing (entryTokens false entries ++ [ch '}'] :: toks) := by
  intro t ht
  cases entries with
  | nil => exact .inr (.inr (by simpa [entryTokens] using ht.symm))
  | cons entry entries => exact .inl (by simpa [entryTokens] using ht.symm)

theorem entryTokens_cons_append (key : JavaString) (item : Value D)
    (entries : List (JavaString × Value D)) (toks : List JavaString) :
    entryTokens true ((key, item) :: entries) ++ [ch '}'] :: toks =
      (ch '"' :: (key.flatMap writeUnit ++ [ch '"'])) :: ([ch ':'] :: (tokens item ++
        (entryTokens false entries ++ [ch '}'] :: toks))) := by
  simp [entryTokens, writeString]

-- The induction follows the value. The fuel covers twice the rest of the text, which
-- shrinks by a unit between a container and its parts.
mutual

theorem reads_value : ∀ (v : Value D) {fuel i : Nat} {toks : List JavaString}, Plain v →
    Closing toks → Spaced (tokens v ++ toks) (s.drop i) → 2 * (s.length - i) < fuel →
    Reads s toks i (value rt s fuel i) v
  | _, 0, _, _, _, _, _, hfuel => absurd hfuel (Nat.not_lt_zero _)
  | .null, _ + 1, _, _, _, _, h, _ => reads_null h
  | .bool b, _ + 1, _, _, _, _, h, _ => reads_bool b h
  | .long n, _ + 1, _, _, _, htoks, h, _ => reads_long n htoks h
  | .double _, _ + 1, _, _, hv, _, _, _ => absurd hv (by simp [Plain])
  | .string t, _ + 1, _, _, _, _, h, _ => reads_string t h
  | .list [], fuel + 1, i, toks, _, _, h, _ => by
      rw [tokens_list_append] at h
      obtain ⟨hopen, hrest, -⟩ := spaced_mark (by decide) h
      obtain ⟨hclose, hrest, hlt'⟩ := spaced_mark (by decide) hrest
      have hle := le_skipWs s i
      have hle' := le_skipWs s (skipWs s i + 1)
      exact ⟨_, by rw [value_of_bracket hopen hclose, if_pos rfl], by omega, hrest⟩
  | .list (item :: items), fuel + 1, i, toks, hv, _, h, hfuel => by
      rw [tokens_list_append] at h
      obtain ⟨hopen, hrest, hlt⟩ := spaced_mark (by decide) h
      obtain ⟨u, t, others, hitem, hu, hne⟩ := tokens_eq_cons hv.1
      have hhead : itemTokens true (item :: items) ++ [ch ']'] :: toks =
          (u :: t) :: (others ++ (itemTokens false items ++ [ch ']'] :: toks)) := by
        simp [itemTokens, hitem]
      rw [hhead] at hrest
      obtain ⟨hnext, hrest⟩ := spaced_skipWs hu hrest
      rw [← hhead] at hrest
      have hle := le_skipWs s i
      have hle' := le_skipWs s (skipWs s i + 1)
      obtain ⟨j, hj, hij, htoks⟩ := reads_elements (item :: items) [] (by simp) hv hrest
        (show 2 * (s.length - skipWs s (skipWs s i + 1)) + 1 < fuel by omega)
      exact ⟨j, by rw [value_of_bracket hopen hnext, if_neg hne, hj]; rfl, by omega, htoks⟩
  | .map [], fuel + 1, i, toks, _, _, h, _ => by
      rw [tokens_map_append] at h
      obtain ⟨hopen, hrest, -⟩ := spaced_mark (by decide) h
      obtain ⟨hclose, hrest, hlt'⟩ := spaced_mark (by decide) hrest
      have hle := le_skipWs s i
      have hle' := le_skipWs s (skipWs s i + 1)
      exact ⟨_, by rw [value_of_brace hopen hclose, if_pos rfl], by omega, hrest⟩
  | .map ((key, item) :: entries), fuel + 1, i, toks, hv, _, h, hfuel => by
      rw [tokens_map_append] at h
      obtain ⟨hopen, hrest, hlt⟩ := spaced_mark (by decide) h
      rw [entryTokens_cons_append] at hrest
      obtain ⟨hnext, hrest⟩ := spaced_skipWs (by decide) hrest
      have hle := le_skipWs s i
      have hle' := le_skipWs s (skipWs s i + 1)
      obtain ⟨j, hj, hij, htoks⟩ := reads_members ((key, item) :: entries) [] (by simp) hv.2 hv.1
        (by rw [entryTokens_cons_append]; exact hrest)
        (show 2 * (s.length - skipWs s (skipWs s i + 1)) + 1 < fuel by omega)
      have hne : ch '"' ≠ ch '}' := by decide
      exact ⟨j, by rw [value_of_brace hopen hnext, if_neg hne, hj]; rfl, by omega, htoks⟩

theorem reads_elements : ∀ (items : List (Value D)) {fuel i : Nat} {toks : List JavaString}
    (list : List (Value D)), items ≠ [] → PlainItems items →
    Spaced (itemTokens true items ++ [ch ']'] :: toks) (s.drop i) →
    2 * (s.length - i) + 1 < fuel →
    Reads s toks i (elements rt s fuel i list) (.list (list ++ items))
  | _, 0, _, _, _, _, _, _, hfuel => absurd hfuel (Nat.not_lt_zero _)
  | [], _ + 1, _, _, _, hne, _, _, _ => absurd rfl hne
  | item :: items, fuel + 1, i, toks, list, _, hitems, h, hfuel => by
      have hitem : Spaced (tokens item ++ (itemTokens false items ++ [ch ']'] :: toks))
          (s.drop i) := by simpa [itemTokens] using h
      obtain ⟨j, hj, hij, hrest⟩ := reads_value item hitems.1 (closing_itemTokens items toks) hitem
        (show 2 * (s.length - i) < fuel by omega)
      have hle := le_skipWs s j
      rw [elements, hj, bind_some]
      cases items with
      | nil =>
        obtain ⟨hclose, hrest, hlt'⟩ := spaced_mark (by decide) hrest
        exact ⟨skipWs s j + 1, by simp [hclose], by omega, hrest⟩
      | cons next items =>
        have hcomma : itemTokens false (next :: items) ++ [ch ']'] :: toks =
            [ch ','] :: (itemTokens true (next :: items) ++ [ch ']'] :: toks) := by
          simp [itemTokens]
        rw [hcomma] at hrest
        obtain ⟨hsep, hrest, hlt⟩ := spaced_mark (by decide) hrest
        obtain ⟨k, hk, hjk, htoks⟩ := reads_elements (next :: items) (list ++ [item]) (by simp)
          hitems.2 hrest (show 2 * (s.length - (skipWs s j + 1)) + 1 < fuel by omega)
        have hne : ch ',' ≠ ch ']' := by decide
        refine ⟨k, ?_, by omega, htoks⟩
        simp only [hsep, bind_some, if_neg hne, hk, append_assoc, cons_append, nil_append]

theorem reads_members : ∀ (entries : List (JavaString × Value D)) {fuel i : Nat}
    {toks : List JavaString} (m : List (JavaString × Value D)), entries ≠ [] →
    PlainEntries entries → ((m ++ entries).map Prod.fst).Nodup →
    Spaced (entryTokens true entries ++ [ch '}'] :: toks) (s.drop i) →
    2 * (s.length - i) + 1 < fuel →
    Reads s toks i (members rt s fuel i m) (.map (m ++ entries))
  | _, 0, _, _, _, _, _, _, _, hfuel => absurd hfuel (Nat.not_lt_zero _)
  | [], _ + 1, _, _, _, hne, _, _, _, _ => absurd rfl hne
  | (key, item) :: entries, fuel + 1, i, toks, m, _, hentries, hnodup, h, hfuel => by
      rw [entryTokens_cons_append] at h
      obtain ⟨text, hkey, htext⟩ := drop_skipWs (by decide) h
      have hstring : s.drop (skipWs s i) = writeString key ++ text := by
        simpa [writeString] using hkey
      have hcolon : Spaced ([ch ':'] :: (tokens item ++ (entryTokens false entries ++
          [ch '}'] :: toks))) (s.drop (skipWs s i + (writeString key).length)) := by
        rwa [drop_length_add hstring]
      obtain ⟨-, hitem, hlt⟩ := spaced_mark (by decide) hcolon
      set p := skipWs s (skipWs s i + (writeString key).length) + 1 with hp
      have hle : i < p := by
        have h1 := le_skipWs s i
        have h2 := le_skipWs s (skipWs s i + (writeString key).length)
        omega
      obtain ⟨j, hj, hij, hrest⟩ := reads_value item hentries.1 (closing_entryTokens entries toks)
        hitem (show 2 * (s.length - p) < fuel by omega)
      have hfresh : key ∉ m.map Prod.fst := by
        rw [map_append, nodup_append] at hnodup
        exact fun hmem => hnodup.2.2 key hmem key (by simp) rfl
      have hle' := le_skipWs s j
      rw [members, string_writeString hstring, bind_some, ← hp, hj, bind_some,
        put_of_not_mem hfresh]
      cases entries with
      | nil =>
        obtain ⟨hclose, hrest, hlt'⟩ := spaced_mark (by decide) hrest
        exact ⟨skipWs s j + 1, by simp [hclose], by omega, hrest⟩
      | cons next entries =>
        have hcomma : entryTokens false (next :: entries) ++ [ch '}'] :: toks =
            [ch ','] :: (entryTokens true (next :: entries) ++ [ch '}'] :: toks) := by
          simp [entryTokens]
        rw [hcomma] at hrest
        obtain ⟨hsep, hrest, hlt'⟩ := spaced_mark (by decide) hrest
        obtain ⟨k, hk, hjk, htoks⟩ := reads_members (next :: entries) (m ++ [(key, item)])
          (by simp) hentries.2 (by simpa using hnodup) hrest
          (show 2 * (s.length - (skipWs s j + 1)) + 1 < fuel by omega)
        have hne : ch ',' ≠ ch '}' := by decide
        refine ⟨k, ?_, by omega, htoks⟩
        simp only [hsep, bind_some, if_neg hne, hk, append_assoc, cons_append, nil_append]

end

/-- The text of a value is parsed to its end, whatever whitespace stands between its tokens. -/
theorem parse_of_spaced {text : JavaString} (hv : Plain v) (htext : Spaced (tokens v) text) :
    parse rt text = some (v, text.length) := by
  have hclosing : Closing [] := by simp [Closing]
  obtain ⟨j, hj, ⟨-, hle⟩, hrest⟩ := reads_value v hv hclosing (by rw [append_nil]; exact htext)
    (show 2 * (text.length - 0) < 2 * text.length + 1 by omega)
  have hend : skipWs text j = text.length := by
    generalize hdrop : text.drop j = rest at hrest
    cases hrest with
    | nil hw =>
      have hall : rest.takeWhile isWhitespace = rest :=
        takeWhile_eq_self_iff.mpr fun u hu => isWhitespace_of_isSpace (hw u hu)
      rw [skipWs, hdrop, hall, ← hdrop, length_drop]
      omega
  rw [parse, hj, map_some, hend]

/-- What the encoder writes is parsed back, also with whitespace between its tokens. -/
theorem parse_encode (rt : Runtime) (v : Value D) (hv : Plain v) :
    parse rt (encode v) = some (v, (encode v).length) ∧
      (tokens v).flatten = encode v ∧
      ∀ text, Spaced (tokens v) text → parse rt text = some (v, text.length) := by
  have hspaced : Spaced (tokens v) (encode v) := by
    rw [encode, ← flatten_tokens]
    exact spaced_flatten _
  exact ⟨parse_of_spaced hv hspaced, flatten_tokens v, fun text => parse_of_spaced hv⟩

def noDoubles : Doubles := ⟨Empty, Empty.elim, fun _ => none⟩

/-- A map with a nested list, a control character and a surrogate by itself. -/
def sampleValue : Value noDoubles :=
  .map [(units "a\"\n".toList, .list [.null, .bool true, .long (-5), .map []]),
    ([1, 0xD800], .string [])]

theorem parse_encode_sampleValue :
    parse sampleRuntime (encode sampleValue) = some (sampleValue, (encode sampleValue).length) :=
  (parse_encode sampleRuntime sampleValue ⟨by decide, by simp [PlainEntries, PlainItems, Plain]⟩).1

end Values

end LiteDB.JavaJson
