import LiteDB.VersionKeys

namespace LiteDB.SqlTokens

open List
open VersionKeys (Text)

/-- The methods of strings, and the conversions of numbers: `int(raw)`, whether `float(raw)`
is defined, and `int(float(raw))`. -/
structure Python where
  isSpace : Char → Bool
  isDigit : Char → Bool
  isAlpha : Char → Bool
  isAlnum : Char → Bool
  isAlnum_of_isAlpha : ∀ c, isAlpha c = true → isAlnum c = true
  upper : Text → Text
  int : Text → Option Int
  isFloat : Text → Bool
  truncate : Text → Option Int

inductive Keyword where
  | select
  | insert
  | update
  | delete
  | create
  | drop
  | from
  | into
  | table
  | where
  | set
  | values
  | and
  | or
  | not
  | order
  | by
  | limit
  | asc
  | desc
  | text
  | int
  | integer
  | float
  | boolean
deriving DecidableEq

def keywords : List (Text × Keyword) :=
  [("SELECT".toList, .select), ("INSERT".toList, .insert), ("UPDATE".toList, .update),
    ("DELETE".toList, .delete), ("CREATE".toList, .create), ("DROP".toList, .drop),
    ("FROM".toList, .from), ("INTO".toList, .into), ("TABLE".toList, .table),
    ("WHERE".toList, .where), ("SET".toList, .set), ("VALUES".toList, .values),
    ("AND".toList, .and), ("OR".toList, .or), ("NOT".toList, .not),
    ("ORDER".toList, .order), ("BY".toList, .by), ("LIMIT".toList, .limit),
    ("ASC".toList, .asc), ("DESC".toList, .desc), ("TEXT".toList, .text),
    ("INT".toList, .int), ("INTEGER".toList, .integer), ("FLOAT".toList, .float),
    ("BOOLEAN".toList, .boolean)]

/-- `TokenType`. -/
inductive Kind where
  | keyword (k : Keyword)
  | ident
  | string
  | number
  | star
  | eq
  | neq
  | lt
  | lte
  | gt
  | gte
  | lparen
  | rparen
  | comma
  | semi
  | eof
deriving DecidableEq

/-- The value of a token or of a literal. A float is given by the text that it is read from. -/
inductive Value where
  | text (s : Text)
  | int (i : Int)
  | float (raw : Text)
  | bool (b : Bool)
  | none
deriving DecidableEq

/-- A token with the position at which it begins. -/
structure Token where
  type : Kind
  value : Value
  pos : Nat
deriving DecidableEq

/-- The exceptions, with what their messages are made of. Only `stuck` is not one of the
program: it stands for a loop or recursion of the model that is cut off. -/
inductive SqlError where
  | unexpectedCharacter (c : Char) (pos : Nat)
  | badNumber (raw : Text)
  | expected (type : Kind) (got : Token)
  | unknownStatement (got : Value)
  | expectedLiteral (got : Token)
  | unexpectedInExpression (got : Token)
  | indexError
  | attributeError
  | stuck
deriving DecidableEq

def IsSyntaxError : SqlError → Prop
  | .badNumber _ => False
  | .indexError => False
  | .attributeError => False
  | .stuck => False
  | _ => True

/-- The characters of a literal up to its closing quote or to the end of the text. -/
def quoted (quote : Char) : Text → Text
  | [] => []
  | [c] => if c = quote then [] else [c]
  | c :: d :: cs =>
      if c = quote then []
      else if c = '\\' then c :: d :: quoted quote cs
      else c :: quoted quote (d :: cs)

def operator (c : Char) (following : Option Char) : Option (Kind × Text) :=
  if c = '!' ∧ following = some '=' then some (.neq, "!=".toList)
  else if c = '<' ∧ following = some '=' then some (.lte, "<=".toList)
  else if c = '>' ∧ following = some '=' then some (.gte, ">=".toList)
  else if c = '=' then some (.eq, "=".toList)
  else if c = '<' then some (.lt, "<".toList)
  else if c = '>' then some (.gt, ">".toList)
  else if c = '*' then some (.star, "*".toList)
  else if c = '(' then some (.lparen, "(".toList)
  else if c = ')' then some (.rparen, ")".toList)
  else if c = ',' then some (.comma, ",".toList)
  else if c = ';' then some (.semi, ";".toList)
  else none

section Tokenizing

variable (py : Python)

def number (raw : Text) : Except SqlError Value :=
  if '.' ∈ raw then
    if py.isFloat raw then .ok (.float raw) else .error (.badNumber raw)
  else
    match py.int raw with
    | some i => .ok (.int i)
    | none => .error (.badNumber raw)

def word (w : Text) : Kind × Value :=
  let upper := py.upper w
  match keywords.lookup upper with
  | some k => (.keyword k, .text upper)
  | none => (.ident, .text w)

/-- One turn of the loop: a token, or nothing for blanks and comments, and how far `i` goes. -/
def lexeme (i : Nat) (c : Char) (cs : Text) : Except SqlError (Option (Kind × Value) × Nat) :=
  if py.isSpace c then
    .ok (none, 1)
  else if c = '-' ∧ cs.head? = some '-' then
    .ok (none, ((c :: cs).takeWhile fun d => d ≠ '\n').length)
  else if c = '\'' ∨ c = '"' then
    let value := quoted c cs
    .ok (some (.string, .text value), value.length + 2)
  else if py.isDigit c ∨ (c = '-' ∧ (cs.head?).any py.isDigit) then
    let digit := fun d => py.isDigit d ∨ d = '.'
    let raw := if c = '-' then c :: cs.takeWhile digit else (c :: cs).takeWhile digit
    (number py raw).map fun value => (some (.number, value), raw.length)
  else if py.isAlpha c ∨ c = '_' then
    let w := (c :: cs).takeWhile fun d => py.isAlnum d ∨ d = '_'
    .ok (some (word py w), w.length)
  else
    match operator c cs.head? with
    | some (kind, text) => .ok (some (kind, .text text), text.length)
    | none => .error (.unexpectedCharacter c i)

def tokensFrom (sql : Text) : Nat → Nat → Except SqlError (List Token)
  | 0, _ => .error .stuck
  | fuel + 1, i =>
      match sql.drop i with
      | [] => .ok [⟨.eof, .none, sql.length⟩]
      | c :: cs => do
          let (token, size) ← lexeme py i c cs
          let tokens ← tokensFrom sql fuel (i + size)
          return (token.map fun t => ⟨t.1, t.2, i⟩).toList ++ tokens

def tokenize (sql : Text) : Except SqlError (List Token) :=
  tokensFrom py sql (sql.length + 1) 0

end Tokenizing

variable {py : Python} {sql cs : Text} {c : Char} {i fuel : Nat}

section Lexemes

variable {p : Prop}

theorem forall_mem_ite {A : Type} {P : A → Prop} [Decidable p] {x y : Option A} (hx : ∀ a ∈ x, P a)
    (hy : ∀ a ∈ y, P a) : ∀ a ∈ if p then x else y, P a := by
  split
  · exact hx
  · exact hy

theorem length_operator_pos {following : Option Char} :
    ∀ t ∈ operator c following, 0 < t.2.length := by
  unfold operator
  iterate 11 refine forall_mem_ite (by decide) ?_
  exact nofun

/-- What a turn of the loop gives: `i` goes on, or an error of the tokenizer is raised. -/
def Turned : Except SqlError (Option (Kind × Value) × Nat) → Prop
  | .ok (_, size) => 0 < size
  | .error e => IsSyntaxError e ∨ ∃ raw, e = .badNumber raw

theorem turned_ite [Decidable p] {x y : Except SqlError (Option (Kind × Value) × Nat)}
    (hx : p → Turned x) (hy : ¬p → Turned y) : Turned (if p then x else y) := by
  split
  · exact hx ‹_›
  · exact hy ‹_›

theorem turned_number {raw : Text} (hraw : 0 < raw.length) :
    Turned ((number py raw).map fun value => (some (.number, value), raw.length)) := by
  unfold number
  split
  · split
    · exact hraw
    · exact .inr ⟨raw, rfl⟩
  · split
    · exact hraw
    · exact .inr ⟨raw, rfl⟩

theorem turned_operator :
    Turned (match operator c cs.head? with
      | some (kind, text) => .ok (some (kind, .text text), text.length)
      | none => .error (.unexpectedCharacter c i)) := by
  cases h : operator c cs.head? with
  | none => exact .inl trivial
  | some t => exact length_operator_pos t h

theorem turned_lexeme : Turned (lexeme py i c cs) := by
  refine turned_ite (fun _ => ?blank) fun _ => turned_ite (fun hcomment => ?comment) fun _ =>
    turned_ite (fun _ => ?string) fun _ => turned_ite (fun hdigit => ?number) fun _ =>
    turned_ite (fun halpha => ?word) fun _ => turned_operator
  case blank => exact Nat.one_pos
  case comment =>
    show 0 < (takeWhile _ (c :: cs)).length
    rw [hcomment.1, takeWhile_cons_of_pos (by decide)]
    exact Nat.succ_pos _
  case string => exact Nat.succ_pos _
  case number =>
    refine turned_number ?_
    split
    · exact Nat.succ_pos _
    · rename_i hc
      have hc' : py.isDigit c = true := hdigit.resolve_right fun hminus => hc hminus.1
      rw [takeWhile_cons_of_pos (by simp [hc'])]
      exact Nat.succ_pos _
  case word =>
    show 0 < (takeWhile _ (c :: cs)).length
    have hc : py.isAlnum c = true ∨ c = '_' := halpha.imp_left (py.isAlnum_of_isAlpha c)
    rw [takeWhile_cons_of_pos (by simpa using hc)]
    exact Nat.succ_pos _

end Lexemes

section Closing

variable {E A B : Type} {x : Except E A} {f : A → Except E B}

theorem bind_eq_error {e : E} (h : (x >>= f) = .error e) :
    x = .error e ∨ ∃ a, x = .ok a ∧ f a = .error e := by
  cases x with
  | error e' => exact .inl (congrArg Except.error (Except.error.inj h))
  | ok a => exact .inr ⟨a, rfl, h⟩

theorem error_of_tokensFrom {e : SqlError} (hfuel : 0 < fuel) (h : sql.length < fuel + i)
    (herror : tokensFrom py sql fuel i = .error e) :
    IsSyntaxError e ∨ ∃ raw, e = .badNumber raw := by
  induction fuel generalizing i with
  | zero => exact absurd hfuel (Nat.lt_irrefl 0)
  | succ fuel ih =>
    simp only [tokensFrom] at herror
    split at herror
    · contradiction
    · rename_i c cs hdrop
      have hi : i < sql.length := by
        rw [← not_le, ← drop_eq_nil_iff, hdrop]
        exact cons_ne_nil c cs
      have hturned : Turned (lexeme py i c cs) := turned_lexeme
      rcases bind_eq_error herror with hlexeme | ⟨⟨token, size⟩, hlexeme, herror⟩
      · rwa [hlexeme] at hturned
      · have hsize : 0 < size := by rwa [hlexeme] at hturned
        rcases bind_eq_error herror with hrest | ⟨_, -, herror⟩
        · exact ih (by omega) (by omega) hrest
        · contradiction

end Closing

end LiteDB.SqlTokens
