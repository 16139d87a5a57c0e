import LiteDB.JavaStrings
import LiteDB.Wal

namespace LiteDB.JavaWal

open Framing
open JavaStrings
open Option
open List hiding replace
open Wal (crc32 crc32_lt)

/-- `WALEntry.java`. -/
structure WALEntry where
  sequence : Int32
  operation : JavaString
  key : JavaString
  value : Option JavaString
deriving DecidableEq

section Definitions

def text (s : String) : JavaString := units s.toList

/-- The name of a field and its colon, as `toJson` writes it and the parser looks for it. -/
def field (name : String) : JavaString := ch '"' :: text name ++ [ch '"', ch ':']

def escapeJson (s : JavaString) : JavaString :=
  replace (replace (replace s [ch '\\'] [ch '\\', ch '\\']) [ch '"'] [ch '\\', ch '"'])
    [ch '\n'] [ch '\\', ch 'n']

def quote (s : JavaString) : JavaString := ch '"' :: s ++ [ch '"']

def valueText : Option JavaString → JavaString
  | none => text "null"
  | some value => quote (escapeJson value)

def WALEntry.toJson (e : WALEntry) : JavaString :=
  [ch '{'] ++ field "seq" ++ decimal e.sequence.toInt ++
    [ch ','] ++ field "op" ++ quote e.operation ++
    [ch ','] ++ field "key" ++ quote (escapeJson e.key) ++
    [ch ','] ++ field "val" ++ valueText e.value ++ [ch '}']

/-- `none` stands for an exception, here and in what follows. -/
def extractField (json : JavaString) (name : String) : Option JavaString := do
  let start := (← indexOf json (field name)) + (field name).length
  let stop ← (indexOfFrom json (ch ',') start).or (indexOfFrom json (ch '}') start)
  return trim (← substring json start stop)

def extractRawField (json : JavaString) (name : String) : Option JavaString := do
  let start := (← indexOf json (field name)) + (field name).length
  let stop ← lastIndexOf json (ch '}')
  return trim (← substring json start stop)

def unescape (s : JavaString) : JavaString :=
  replace (replace (replace s [ch '\\', ch '"'] [ch '"']) [ch '\\', ch '\\'] [ch '\\'])
    [ch '\\', ch 'n'] [ch '\n']

def unquote (s : JavaString) : Option JavaString := do
  let s := trim s
  let s ← if s.head? = some (ch '"') ∧ s.getLast? = some (ch '"') then
      substring s 1 (s.length - 1)
    else some s
  return unescape s

/-- The last field without its quotes, or `null`. -/
def parseValue (raw : JavaString) : Option (Option JavaString) :=
  if raw = text "null" then some none else (unquote raw).map some

variable (rt : Runtime)

def WALEntry.fromJson (json : JavaString) : Option WALEntry := do
  let sequence ← parseInt rt (trim (← extractField json "seq"))
  let operation ← unquote (← extractField json "op")
  let key ← unquote (← extractField json "key")
  let value ← parseValue (← extractRawField json "val")
  return ⟨sequence, operation, key, value⟩

/-- The record that `writeEntry` forces to the file. A buffer has less than 2^31 bytes. -/
def writeEntry (e : WALEntry) : Option Bytes :=
  let payload := getBytes e.toJson
  if payload.length + 8 < 2 ^ 31 then some (frame crc32 payload) else none

/-- The loop of `readAll`; every turn takes bytes off the file. A length that is negative
as an `int` raises an exception that nothing catches. -/
def readEntries : Nat → Bytes → Option (List WALEntry)
  | 0, _ => some []
  | fuel + 1, bytes =>
      if 4 ≤ bytes.length ∧ 2 ^ 31 ≤ unpack (bytes.take 4) then none
      else
        match readFrame crc32 bytes with
        | none => some []
        | some (payload, rest) =>
            match WALEntry.fromJson rt (newString rt payload) with
            | none => some []
            | some e => (readEntries fuel rest).map (e :: ·)

def readAll (file : Bytes) : Option (List WALEntry) := readEntries rt file.length file

end Definitions

variable {s : JavaString}

section Escapes

variable {u : JavaChar}

def escapeUnit (u : JavaChar) : JavaString :=
  if u = ch '\\' then [ch '\\', ch '\\']
  else if u = ch '"' then [ch '\\', ch '"']
  else if u = ch '\n' then [ch '\\', ch 'n']
  else [u]

theorem escapeJson_eq_flatMap (s : JavaString) : escapeJson s = s.flatMap escapeUnit := by
  simp only [escapeJson, replace_singleton, flatMap_assoc]
  congr 1
  funext u
  have h1 : ch '\\' ≠ ch '"' := by decide
  have h2 : ch '\\' ≠ ch '\n' := by decide
  have h3 : ch '"' ≠ ch '\n' := by decide
  by_cases hu : u = ch '\\'
  · simp [escapeUnit, hu, h1, h2]
  · by_cases hquote : u = ch '"'
    · simp [escapeUnit, hquote, h1.symm, h2, h3]
    · simp [escapeUnit, hu, hquote]

theorem escapeJson_cons (u : JavaChar) (s : JavaString) :
    escapeJson (u :: s) = escapeUnit u ++ escapeJson s := by
  rw [escapeJson_eq_flatMap, flatMap_cons, escapeJson_eq_flatMap]

theorem head_escapeUnit (u : JavaChar) :
    ∃ v rest, escapeUnit u = v :: rest ∧ v ≠ ch '"' ∧ (v = ch '\\' ∨ v = u ∧ rest = []) := by
  unfold escapeUnit
  split_ifs with h1 h2 h3
  · exact ⟨_, _, rfl, by decide, .inl rfl⟩
  · exact ⟨_, _, rfl, by decide, .inl rfl⟩
  · exact ⟨_, _, rfl, by decide, .inl rfl⟩
  · exact ⟨_, _, rfl, h2, .inr ⟨rfl, rfl⟩⟩

variable (s : JavaString)

theorem head_escapeJson : (escapeJson s).head? ≠ some (ch '"') := by
  cases s with
  | nil => simp [escapeJson_eq_flatMap]
  | cons u s =>
    obtain ⟨v, rest, hu, hv, -⟩ := head_escapeUnit u
    simpa [escapeJson_cons, hu] using hv

theorem replace_quotes :
    replace (escapeJson s) [ch '\\', ch '"'] [ch '"'] = s.flatMap fun u =>
      if u = ch '\\' then [ch '\\', ch '\\'] else if u = ch '\n' then [ch '\\', ch 'n'] else [u] :=
        by
  induction s with
  | nil => rfl
  | cons u s ih =>
    have hback : ch '\\' ≠ ch '"' := by decide
    have hn : ch 'n' ≠ ch '"' := by decide
    have hn' : ch 'n' ≠ ch '\\' := by decide
    rw [escapeJson_cons, flatMap_cons, ← ih, escapeUnit]
    split_ifs with h1 h2 h3 h4
    · rw [cons_append, singleton_append, replace_cons_of_head _ _ (by simpa using hback),
        replace_cons_of_head _ _ (head_escapeJson s)]
      rfl
    · exact absurd (h2.symm.trans h3) (by decide)
    · rw [cons_append, singleton_append, replace_pair, h2]
    · rw [cons_append, singleton_append, replace_cons_of_head _ _ (by simpa using hn),
        replace_cons_of_ne _ _ hn']
      rfl
    · rw [singleton_append, replace_cons_of_ne _ _ h1]
      rfl

theorem replace_backslashes :
    replace (s.flatMap fun u => if u = ch '\\' then [ch '\\', ch '\\']
        else if u = ch '\n' then [ch '\\', ch 'n'] else [u]) [ch '\\', ch '\\'] [ch '\\'] =
      replace s [ch '\n'] [ch '\\', ch 'n'] := by
  rw [replace_singleton]
  induction s with
  | nil => rfl
  | cons u s ih =>
    have hn : ch 'n' ≠ ch '\\' := by decide
    rw [flatMap_cons, flatMap_cons, ← ih]
    split_ifs with h1 h2 h3
    · exact absurd (h1.symm.trans h2) (by decide)
    · rw [cons_append, singleton_append, replace_pair, h1]
    · rw [cons_append, singleton_append, replace_cons_of_head _ _ (by simpa using hn),
        replace_cons_of_ne _ _ hn]
      rfl
    · rw [singleton_append, replace_cons_of_ne _ _ h1]
      rfl

/-- The third replacement takes the escapes of line feeds back, and what looks like one. -/
theorem replace_newlines :
    replace (replace s [ch '\n'] [ch '\\', ch 'n']) [ch '\\', ch 'n'] [ch '\n'] =
      replace s [ch '\\', ch 'n'] [ch '\n'] := by
  rw [replace_singleton]
  induction hlength : s.length using Nat.strong_induction_on generalizing s with
  | _ n ih =>
    subst hlength
    have hline : ch '\n' ≠ ch '\\' := by decide
    cases s with
    | nil => rfl
    | cons u s =>
      have hs := ih s.length (by simp) s rfl
      rw [flatMap_cons]
      by_cases h1 : u = ch '\n'
      · rw [if_pos h1, cons_append, singleton_append, replace_pair, hs, h1,
          replace_cons_of_ne _ _ hline]
        rfl
      rw [if_neg h1, singleton_append]
      by_cases h2 : u = ch '\\'
      swap
      · rw [replace_cons_of_ne _ _ h2, hs, replace_cons_of_ne _ _ h2]
      subst h2
      cases s with
      | nil => rfl
      | cons v s =>
        have hv : ch 'n' ≠ ch '\n' := by decide
        by_cases h3 : v = ch 'n'
        · subst h3
          rw [flatMap_cons, if_neg hv, singleton_append, replace_pair, replace_pair,
            ih s.length (by simp only [length_cons]; omega) s rfl]
        · rw [replace_cons_of_head, hs, replace_cons_of_head]
          · simpa using h3
          · rw [flatMap_cons]
            split_ifs
            · simp only [cons_append, head?_cons]
              decide
            · simpa using h3

theorem unescape_escapeJson : unescape (escapeJson s) = replace s [ch '\\', ch 'n'] [ch '\n'] := by
  rw [unescape, replace_quotes, replace_backslashes, replace_newlines]

end Escapes

variable {label : JavaString}

section Fields

variable {t before content rest : JavaString} {name : String}

def Bare (s : JavaString) : Prop := ch '"' ∉ s ∧ ch '\\' ∉ s ∧ ch ',' ∉ s

instance (s : JavaString) : Decidable (Bare s) := inferInstanceAs (Decidable (_ ∧ _))

/-- In a quoted text a name does not end with a quote and a colon. -/
theorem not_prefix_escapeJson (hlabel : Bare label) (s t : JavaString) :
    ¬label ++ [ch '"', ch ':'] <+: escapeJson s ++ ch '"' :: ch ',' :: t := by
  induction s generalizing label with
  | nil =>
    cases label with
    | nil =>
      intro h
      have hcolon : ch ':' ≠ ch ',' := by decide
      simp [escapeJson_eq_flatMap, hcolon] at h
    | cons c label =>
      intro h
      have hquote := (cons_prefix_cons.mp h).1
      exact hlabel.1 (by simp [hquote])
  | cons u s ih =>
    obtain ⟨v, rest, hu, hv, hhead⟩ := head_escapeUnit u
    rw [escapeJson_cons, hu]
    cases label with
    | nil => exact fun h => hv (cons_prefix_cons.mp h).1.symm
    | cons c label =>
      intro h
      obtain ⟨hc, htail⟩ := cons_prefix_cons.mp h
      obtain ⟨hquote, hback, hcomma⟩ := hlabel
      simp only [mem_cons, not_or] at hquote hback hcomma
      rcases hhead with rfl | ⟨-, rfl⟩
      · exact hback.1 hc.symm
      · exact ih ⟨hquote.2, hback.2, hcomma.2⟩ htail

theorem not_field_prefix_cons (h : ¬text name ++ [ch '"', ch ':'] <+: s) :
    ¬field name <+: ch '"' :: s :=
  fun hprefix => h (cons_prefix_cons.mp hprefix).2

/-- The search for a field goes on behind the text. -/
def Skips (name : String) (s : JavaString) : Prop :=
  ∀ t, indexOf (s ++ t) (field name) = (indexOf t (field name)).map (s.length + ·)

theorem Skips.append (hs : Skips name s) (ht : Skips name t) : Skips name (s ++ t) := by
  intro rest
  rw [append_assoc, hs, ht, Option.map_map, length_append]
  congr 1
  funext i
  simp [Nat.add_assoc]

theorem skips_of_not_mem (h : ch '"' ∉ s) : Skips name s := fun t => indexOf_append h t _

theorem skips_cons_quote (hs : Skips name s)
    (h : ∀ t, ¬text name ++ [ch '"', ch ':'] <+: s ++ t) : Skips name (ch '"' :: s) := by
  intro t
  rw [cons_append, indexOf_cons (not_field_prefix_cons (h t)), hs, Option.map_map, length_cons]
  congr 1
  funext i
  simp [Nat.add_right_comm]

theorem skips_field {name' : String} {c c' : JavaChar} {label' : JavaString}
    (hname : text name = c :: label) (hname' : text name' = c' :: label')
    (hquote : ch '"' ∉ text name') (hne : c ≠ c') (hcolon : c ≠ ch ':') :
    Skips name (field name') := by
  have hclose : Skips name [ch '"', ch ':'] := by
    refine skips_cons_quote (skips_of_not_mem (by decide)) fun t h => ?_
    rw [hname] at h
    exact hcolon (cons_prefix_cons.mp h).1
  have hopen : Skips name (ch '"' :: (text name' ++ [ch '"', ch ':'])) := by
    refine skips_cons_quote ((skips_of_not_mem hquote).append hclose) fun t h => ?_
    rw [hname, hname'] at h
    exact hne (cons_prefix_cons.mp h).1
  exact hopen

theorem skips_escapeJson (hname : Bare (text name)) (s : JavaString) :
    Skips name (escapeJson s ++ [ch '"', ch ',']) := by
  have hquote := not_prefix_escapeJson hname
  induction s with
  | nil =>
    refine skips_cons_quote (skips_of_not_mem (by decide)) fun t h => ?_
    cases hlabel : text name with
    | nil =>
      rw [hlabel] at h
      exact absurd (cons_prefix_cons.mp h).1 (by decide)
    | cons c label =>
      rw [hlabel] at h
      have hc := (cons_prefix_cons.mp h).1
      exact hname.2.2 (by simp [hlabel, hc])
  | cons u s ih =>
    rw [escapeJson_cons, append_assoc, escapeUnit]
    split_ifs with h1 h2 h3
    · exact (skips_of_not_mem (by decide)).append ih
    · have hopen : Skips name (ch '"' :: (escapeJson s ++ [ch '"', ch ','])) :=
        skips_cons_quote ih fun t h => hquote s t (by simpa using h)
      exact (skips_of_not_mem (s := [ch '\\']) (by decide)).append hopen
    · exact (skips_of_not_mem (by decide)).append ih
    · exact (skips_of_not_mem (by simpa using Ne.symm h2)).append ih

theorem skips_quote (hname : Bare (text name)) (s : JavaString) :
    Skips name (quote (escapeJson s) ++ [ch ',']) := by
  have hsplit : quote (escapeJson s) ++ [ch ','] =
      ch '"' :: (escapeJson s ++ [ch '"', ch ',']) := by simp [quote]
  rw [hsplit]
  refine skips_cons_quote (skips_escapeJson hname s) fun t h => ?_
  exact not_prefix_escapeJson hname s t (by simpa using h)

theorem indexOf_field (h : Skips name before) (t : JavaString) :
    indexOf (before ++ (field name ++ t)) (field name) = some before.length := by
  rw [h, indexOf_of_isPrefix (prefix_append _ _)]
  rfl

theorem extractField_append (h : Skips name before) (hcontent : ch ',' ∉ content)
    (rest : JavaString) :
    extractField (before ++ (field name ++ (content ++ ch ',' :: rest))) name =
      some (trim content) := by
  have hsplit : before ++ (field name ++ (content ++ ch ',' :: rest)) =
      (before ++ field name) ++ (content ++ ch ',' :: rest) := by simp
  have hlength : before.length + (field name).length = (before ++ field name).length := by simp
  rw [extractField, indexOf_field h]
  simp only [Option.bind_eq_bind, Option.bind_some]
  rw [hsplit, indexOfFrom_append hlength hcontent, some_or, Option.bind_some,
    substring_append _ _ _ hlength rfl]
  rfl

theorem extractRawField_append (h : Skips name before) (content : JavaString) :
    extractRawField (before ++ (field name ++ (content ++ [ch '}']))) name =
      some (trim content) := by
  have hsplit : before ++ (field name ++ (content ++ [ch '}'])) =
      (before ++ field name) ++ (content ++ [ch '}']) := by simp
  have hlast : lastIndexOf ((before ++ field name) ++ (content ++ [ch '}'])) (ch '}') =
      some ((before ++ field name) ++ content).length := by
    rw [← append_assoc, lastIndexOf_append (by simp)]
  have hlength : before.length + (field name).length = (before ++ field name).length := by simp
  rw [extractRawField, indexOf_field h]
  simp only [Option.bind_eq_bind, Option.bind_some]
  rw [hsplit, hlast, Option.bind_some, substring_append _ _ _ hlength rfl]
  rfl

theorem trim_quote (s : JavaString) : trim (quote s) = quote s := by
  refine trim_eq_self (fun u hu => ?_) fun u hu => ?_
  · obtain rfl : ch '"' = u := by simpa [quote] using hu
    decide
  · obtain rfl : ch '"' = u := by
      rw [quote, getLast?_concat] at hu
      exact Option.some.inj hu
    decide

theorem unquote_quote (s : JavaString) : unquote (quote s) = some (unescape s) := by
  have hhead : (quote s).head? = some (ch '"') := by simp [quote]
  have hlast : (quote s).getLast? = some (ch '"') := by rw [quote, getLast?_concat]
  have hinner : substring (quote s) 1 ((quote s).length - 1) = some s := by
    have hsplit : quote s = [ch '"'] ++ (s ++ [ch '"']) := by simp [quote]
    rw [hsplit]
    exact substring_append _ _ _ rfl (by simp)
  simp only [unquote, trim_quote, hhead, hlast, and_self, if_true, hinner, Option.bind_eq_bind,
    Option.bind_some, Option.pure_def]

theorem comma_not_mem_unquote {k : JavaString} (h : unquote s = some k) (hs : ch ',' ∉ s) :
    ch ',' ∉ k := by
  have htrim : ch ',' ∉ trim s := fun hmem =>
    hs ((dropWhile_sublist _).mem ((List.rdropWhile_prefix _ _).mem hmem))
  have hunescape : ∀ t, ch ',' ∉ t → ch ',' ∉ unescape t := by
    intro t ht hmem
    rcases of_mem_replaceFrom hmem with hmem | hmem
    · rcases of_mem_replaceFrom hmem with hmem | hmem
      · rcases of_mem_replaceFrom hmem with hmem | hmem
        · exact ht hmem
        · exact absurd hmem (by decide)
      · exact absurd hmem (by decide)
    · exact absurd hmem (by decide)
  simp only [unquote, Option.bind_eq_bind] at h
  split_ifs at h
  · obtain ⟨t, ht, ⟨⟩⟩ := Option.bind_eq_some_iff.mp h
    refine hunescape t fun hmem => ?_
    obtain ⟨-, ⟨⟩⟩ := ite_none_right_eq_some.mp ht
    exact htrim (mem_of_mem_take (mem_of_mem_drop hmem))
  · cases h
    exact hunescape _ htrim

end Fields

variable {rt : Runtime} {e : WALEntry}

section RoundTrips

def operations : List JavaString := [text "SET", text "DELETE", text "BEGIN", text "COMMIT"]

/-- The key has no comma, and neither key nor value has a backslash before an `n`. -/
structure Faithful (e : WALEntry) : Prop where
  comma : ch ',' ∉ e.key
  key : ¬[ch '\\', ch 'n'] <:+: e.key
  value : ∀ value ∈ e.value, ¬[ch '\\', ch 'n'] <:+: value

theorem escapeJson_operation (h : e.operation ∈ operations) :
    escapeJson e.operation = e.operation := by
  have hall : ∀ op ∈ operations, escapeJson op = op := by decide
  exact hall _ h

theorem comma_not_mem_operation (h : e.operation ∈ operations) : ch ',' ∉ e.operation := by
  have hall : ∀ op ∈ operations, ch ',' ∉ op := by decide
  exact hall _ h

theorem not_mem_decimal {n : Int} {u : JavaChar} (hu : u.val ≤ ','.toNat) : u ∉ decimal n :=
  fun hmem => absurd (lt_of_mem_decimal hmem) (by omega)

theorem trim_decimal (n : Int) : trim (decimal n) = decimal n := by
  have hlt : ∀ u ∈ decimal n, 0x20 < u.val := fun u hu =>
    lt_trans (by decide) (lt_of_mem_decimal hu)
  exact trim_eq_self (fun u hu => hlt u (mem_of_head? hu)) fun u hu => hlt u (mem_of_getLast? hu)

theorem comma_not_mem_escapeJson (h : ch ',' ∉ s) : ch ',' ∉ escapeJson s := by
  intro hmem
  rw [escapeJson_eq_flatMap] at hmem
  obtain ⟨u, hu, hmem⟩ := mem_flatMap.mp hmem
  unfold escapeUnit at hmem
  split_ifs at hmem
  · exact absurd hmem (by decide)
  · exact absurd hmem (by decide)
  · exact absurd hmem (by decide)
  · exact h (mem_singleton.mp hmem ▸ hu)

def upToSeq : JavaString := [ch '{']

def upToOp (e : WALEntry) : JavaString :=
  upToSeq ++ field "seq" ++ (decimal e.sequence.toInt ++ [ch ','])

def upToKey (e : WALEntry) : JavaString :=
  upToOp e ++ field "op" ++ (quote e.operation ++ [ch ','])

def upToVal (e : WALEntry) : JavaString :=
  upToKey e ++ field "key" ++ (quote (escapeJson e.key) ++ [ch ','])

theorem toJson_eq (e : WALEntry) :
    e.toJson = upToVal e ++ (field "val" ++ (valueText e.value ++ [ch '}'])) := by
  simp [WALEntry.toJson, upToVal, upToKey, upToOp, upToSeq]

variable {c : JavaChar}

theorem skips_upToOp (name : String) (hname : text name = c :: label) (hs : c ≠ ch 's')
    (hcolon : c ≠ ch ':') (e : WALEntry) : Skips name (upToOp e) := by
  have hfield : Skips name (field "seq") := skips_field hname rfl (by decide) hs hcolon
  have hnumber : ch '"' ∉ decimal e.sequence.toInt ++ [ch ','] := by
    have hquote : ch '"' ≠ ch ',' := by decide
    simpa [hquote] using not_mem_decimal (by decide)
  exact ((skips_of_not_mem (by decide)).append hfield).append (skips_of_not_mem hnumber)

theorem skips_upToKey (name : String) (hname : text name = c :: label) (hs : c ≠ ch 's')
    (ho : c ≠ ch 'o') (hcolon : c ≠ ch ':') (hbare : Bare (text name))
    (he : e.operation ∈ operations) : Skips name (upToKey e) := by
  have hfield : Skips name (field "op") := skips_field hname rfl (by decide) ho hcolon
  have hquote := skips_quote hbare e.operation
  rw [escapeJson_operation he] at hquote
  exact ((skips_upToOp name hname hs hcolon e).append hfield).append hquote

theorem skips_upToVal (he : e.operation ∈ operations) : Skips "val" (upToVal e) := by
  have hkey : Skips "val" (upToKey e) :=
    skips_upToKey "val" rfl (by decide) (by decide) (by decide) (by decide) he
  have hfield : Skips "val" (field "key") :=
    skips_field rfl rfl (by decide) (by decide) (by decide)
  exact (hkey.append hfield).append (skips_quote (by decide) e.key)

theorem extractField_seq (e : WALEntry) :
    extractField e.toJson "seq" = some (decimal e.sequence.toInt) := by
  have hskips : Skips "seq" upToSeq := skips_of_not_mem (by decide)
  have hextract := extractField_append hskips (not_mem_decimal (n := e.sequence.toInt)
    (u := ch ',') (by decide)) (field "op" ++ quote e.operation ++
    [ch ','] ++ field "key" ++ quote (escapeJson e.key) ++
    [ch ','] ++ field "val" ++ valueText e.value ++ [ch '}'])
  rw [trim_decimal] at hextract
  rw [← hextract]
  simp [WALEntry.toJson, upToSeq]

theorem extractField_op (he : e.operation ∈ operations) :
    extractField e.toJson "op" = some (quote e.operation) := by
  have hskips := skips_upToOp "op" rfl (by decide) (by decide) e
  have hcomma : ch ',' ∉ quote e.operation := by
    have hquote : ch ',' ≠ ch '"' := by decide
    simp [quote, hquote, comma_not_mem_operation he]
  have hextract := extractField_append hskips hcomma (field "key" ++ quote (escapeJson e.key) ++
    [ch ','] ++ field "val" ++ valueText e.value ++ [ch '}'])
  rw [trim_quote] at hextract
  rw [← hextract]
  simp [WALEntry.toJson, upToOp, upToSeq]

/-- The field of the key ends at the first comma, which may be one of the key. -/
theorem extractField_key (he : e.operation ∈ operations) {content rest : JavaString}
    (hcontent : ch ',' ∉ content)
    (hsplit : quote (escapeJson e.key) ++ ch ',' :: (field "val" ++ (valueText e.value ++
      [ch '}'])) = content ++ ch ',' :: rest) :
    extractField e.toJson "key" = some (trim content) := by
  have hskips : Skips "key" (upToKey e) :=
    skips_upToKey "key" rfl (by decide) (by decide) (by decide) (by decide) he
  rw [← extractField_append hskips hcontent rest, ← hsplit]
  simp [toJson_eq, upToVal]

theorem extractRawField_val (he : e.operation ∈ operations) :
    extractRawField e.toJson "val" = some (valueText e.value) := by
  have htrim : trim (valueText e.value) = valueText e.value := by
    cases e.value with
    | none => decide
    | some value => exact trim_quote _
  rw [toJson_eq, extractRawField_append (skips_upToVal he), htrim]

theorem parseValue_valueText (value : Option JavaString) : parseValue (valueText value) =
    some (value.map fun v => replace v [ch '\\', ch 'n'] [ch '\n']) := by
  cases value with
  | none => rfl
  | some value =>
    have hne : valueText (some value) ≠ text "null" := fun h =>
      absurd (List.cons.inj h).1 (by decide)
    rw [parseValue, if_neg hne, valueText, unquote_quote, unescape_escapeJson]
    rfl

variable (he : e.operation ∈ operations)

include he

theorem fromJson_toJson_ne (hcomma : ch ',' ∈ e.key) : WALEntry.fromJson rt e.toJson ≠ some e := by
  intro h
  have hquoted : ch ',' ∈ quote (escapeJson e.key) := by
    have hunit : escapeUnit (ch ',') = [ch ','] := by decide
    have hmem : ch ',' ∈ escapeJson e.key := by
      rw [escapeJson_eq_flatMap]
      exact mem_flatMap.mpr ⟨_, hcomma, by simp [hunit]⟩
    simp [quote, hmem]
  obtain ⟨content, rest, hsplit, hcontent⟩ := eq_append_cons_of_mem hquoted
  have hsplit' : quote (escapeJson e.key) ++ ch ',' :: (field "val" ++ (valueText e.value ++
      [ch '}'])) = content ++ ch ',' :: (rest ++ ch ',' :: (field "val" ++ (valueText e.value ++
      [ch '}']))) := by simp [hsplit]
  have hkey := extractField_key he hcontent hsplit'
  simp only [WALEntry.fromJson, hkey, Option.bind_eq_bind, Option.bind_eq_some_iff,
    Option.some.injEq, exists_eq_left'] at h
  obtain ⟨_, -, _, -, _, -, _, -, k, hk, _, -, _, -, hentry⟩ := h
  have htrim : ch ',' ∉ trim content := fun hmem =>
    hcontent ((dropWhile_sublist _).mem ((List.rdropWhile_prefix _ _).mem hmem))
  refine comma_not_mem_unquote hk htrim ?_
  obtain rfl : k = e.key := congrArg WALEntry.key (Option.some.inj hentry)
  exact hcomma

theorem fromJson_toJson (hcomma : ch ',' ∉ e.key) :
    WALEntry.fromJson rt e.toJson = some { e with
      key := replace e.key [ch '\\', ch 'n'] [ch '\n']
      value := e.value.map fun v => replace v [ch '\\', ch 'n'] [ch '\n'] } := by
  have hquoted : ch ',' ∉ quote (escapeJson e.key) := by
    have hquote : ch ',' ≠ ch '"' := by decide
    simp [quote, hquote, comma_not_mem_escapeJson hcomma]
  have hkey := extractField_key he hquoted rfl
  have hop : unescape e.operation = e.operation := by
    have hall : ∀ op ∈ operations, unescape op = op := by decide
    exact hall _ he
  simp only [WALEntry.fromJson, extractField_seq, extractField_op he, hkey,
    extractRawField_val he, parseValue_valueText, trim_decimal, trim_quote, unquote_quote, hop,
      parseInt_decimal,
    unescape_escapeJson, Option.bind_eq_bind, Option.bind_some, Option.pure_def]

theorem fromJson_toJson_eq_iff : WALEntry.fromJson rt e.toJson = some e ↔ Faithful e := by
  by_cases hcomma : ch ',' ∈ e.key
  · exact iff_of_false (fromJson_toJson_ne he hcomma) fun h => h.comma hcomma
  · rw [fromJson_toJson he hcomma, Option.some.injEq, WALEntry.mk.injEq]
    constructor
    · rintro ⟨-, -, hkey, hvalue⟩
      refine ⟨hcomma, (replace_pair_eq_self_iff _).mp hkey, fun v hv => ?_⟩
      rw [mem_def] at hv
      rw [hv, map_some, Option.some.injEq] at hvalue
      exact (replace_pair_eq_self_iff _).mp hvalue
    · rintro ⟨-, hkey, hvalue⟩
      refine ⟨rfl, rfl, (replace_pair_eq_self_iff _).mpr hkey, ?_⟩
      cases hv : e.value with
      | none => rfl
      | some v => rw [map_some, (replace_pair_eq_self_iff _).mpr (hvalue v hv)]

end RoundTrips

section Recovery

variable {entries : List WALEntry}

/-- The key and the value can be written in UTF-8. -/
structure Encodable (e : WALEntry) : Prop where
  key : WellFormed e.key
  value : ∀ value ∈ e.value, WellFormed value

theorem wellFormed_quote_escapeJson (h : WellFormed s) : WellFormed (quote (escapeJson s)) := by
  have hback : WellFormed [ch '\\', ch '\\'] := wellFormed_units ['\\', '\\']
  have hquote : WellFormed [ch '\\', ch '"'] := wellFormed_units ['\\', '"']
  have hline : WellFormed [ch '\\', ch 'n'] := wellFormed_units ['\\', 'n']
  have hescape : WellFormed (escapeJson s) :=
    ((h.replace (by decide) hback).replace (by decide) hquote).replace (by decide) hline
  exact ((wellFormed_units ['"']).append hescape).append (wellFormed_units ['"'])

theorem wellFormed_toJson (he : e.operation ∈ operations) (h : Encodable e) :
    WellFormed e.toJson := by
  have hfield : ∀ name, WellFormed (field name) := fun name =>
    ((wellFormed_units ['"']).append (wellFormed_units name.toList)).append
      (wellFormed_units ['"', ':'])
  have hnumber : WellFormed (decimal e.sequence.toInt) := by
    refine WellFormed.append ?_ (wellFormed_units _)
    split_ifs
    · exact wellFormed_units ['-']
    · exact wellFormed_units []
  have hop : WellFormed (quote e.operation) := by
    have hall : ∀ op ∈ operations, WellFormed (quote op) := by decide
    exact hall _ he
  have hvalue : WellFormed (valueText e.value) := by
    cases hv : e.value with
    | none => exact wellFormed_units _
    | some value => exact wellFormed_quote_escapeJson (h.value value hv)
  have hcomma : WellFormed [ch ','] := wellFormed_units [',']
  have hkey := wellFormed_quote_escapeJson h.key
  exact (((((((((((wellFormed_units ['{']).append (hfield _)).append hnumber).append hcomma).append
    (hfield _)).append hop).append hcomma).append (hfield _)).append hkey).append hcomma).append
    (hfield _)).append hvalue |>.append (wellFormed_units ['}'])

theorem readEntries_writeEntry {records : List Bytes} {fuel : Nat}
    (hentries : ∀ e ∈ entries, e.operation ∈ operations ∧ Faithful e ∧ Encodable e)
    (hrecords : entries.mapM writeEntry = some records) (hfuel : records.flatten.length ≤ fuel) :
    readEntries rt fuel records.flatten = some entries := by
  induction entries generalizing records fuel with
  | nil =>
    obtain rfl : [] = records := by simpa using hrecords
    cases fuel with
    | zero => rfl
    | succ fuel => rfl
  | cons e entries ih =>
    obtain ⟨⟨hop, hfaithful, hencodable⟩, hentries⟩ := forall_mem_cons.mp hentries
    simp only [mapM_cons, Option.bind_eq_bind, Option.bind_eq_some_iff, Option.pure_def,
      Option.some.injEq] at hrecords
    obtain ⟨record, hrecord, rest, hrest, rfl⟩ := hrecords
    simp only [writeEntry] at hrecord
    obtain ⟨hfits, ⟨⟩⟩ := ite_none_right_eq_some.mp hrecord
    rw [flatten_cons, length_append, length_frame] at hfuel
    cases fuel with
    | zero => omega
    | succ fuel =>
      have htail := ih hentries hrest (show rest.flatten.length ≤ fuel by omega)
      have hlimit : (getBytes e.toJson).length < limit := by
        have : limit = 2 ^ 32 := by decide
        omega
      have hlength : unpack ((frame crc32 (getBytes e.toJson) ++ rest.flatten).take 4) =
          (getBytes e.toJson).length := by
        rw [frame, append_assoc, append_assoc, take_left' (length_pack _), unpack_pack hlimit]
      have hread : readFrame crc32 (frame crc32 (getBytes e.toJson) ++ rest.flatten) =
          some (getBytes e.toJson, rest.flatten) :=
        readFrame_frame_append hlimit (crc32_lt _)
      have hentry : WALEntry.fromJson rt (newString rt (getBytes e.toJson)) = some e := by
        rw [newString_getBytes (wellFormed_toJson hop hencodable)]
        exact (fromJson_toJson_eq_iff hop).mpr hfaithful
      rw [flatten_cons, readEntries, hlength, if_neg (by omega), hread]
      simp only [hentry, htail, map_some]

/-- An entry is read back from its text exactly when it is faithful, and recovery finds the
entries that were written when they are. -/
theorem replays_of_faithful (rt : Runtime) :
    (∀ e : WALEntry, e.operation ∈ operations →
      (WALEntry.fromJson rt e.toJson = some e ↔ Faithful e)) ∧
    ∀ entries records,
      (∀ e ∈ entries, e.operation ∈ operations ∧ Faithful e ∧ Encodable e) →
      entries.mapM writeEntry = some records → readAll rt records.flatten = some entries :=
  ⟨fun _ he => fromJson_toJson_eq_iff he, fun _ _ hentries hrecords =>
    readEntries_writeEntry hentries hrecords le_rfl⟩

def sampleEntries : List WALEntry :=
  [⟨-1, text "SET", text "a\\\"\n", some (text "x,y\x7d\\")⟩, ⟨2, text "DELETE", text "b", none⟩]

theorem replays_sampleEntries : ∃ records, sampleEntries.mapM writeEntry = some records ∧
    readAll sampleRuntime records.flatten = some sampleEntries := by
  have hwritten : (sampleEntries.mapM writeEntry).isSome = true := by decide +kernel
  obtain ⟨records, hrecords⟩ := isSome_iff_exists.mp hwritten
  refine ⟨records, hrecords, (replays_of_faithful sampleRuntime).2 sampleEntries _ ?_ hrecords⟩
  intro e he
  have hall : ∀ e ∈ sampleEntries, e.operation ∈ operations ∧
      (ch ',' ∉ e.key ∧ (¬[ch '\\', ch 'n'] <:+: e.key) ∧
        ∀ value ∈ e.value, ¬[ch '\\', ch 'n'] <:+: value) ∧
      WellFormed e.key ∧ ∀ value ∈ e.value, WellFormed value := by decide +kernel
  obtain ⟨hop, ⟨hcomma, hkey, hvalue⟩, hwell⟩ := hall e he
  exact ⟨hop, ⟨hcomma, hkey, hvalue⟩, hwell.1, hwell.2⟩

/-- A comma ends the field of the key. -/
theorem fromJson_toJson_ne_of_comma : ¬ ∀ (rt : Runtime) (e : WALEntry),
    e.operation ∈ operations → WALEntry.fromJson rt e.toJson = some e := by
  intro h
  have hread := h sampleRuntime ⟨1, text "SET", text "a,b", some (text "v")⟩ (by decide)
  exact fromJson_toJson_ne (by decide) (by decide) hread

end Recovery

end LiteDB.JavaWal
