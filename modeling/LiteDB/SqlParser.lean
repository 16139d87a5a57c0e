import LiteDB.Grammars
import LiteDB.SortedMaps
import LiteDB.SqlTokens

/-!
The recursive descent parser of the SQL layer (`sql_parser.py`) and the grammar that it is
documented with.
-/

namespace LiteDB.SqlParser

open Grammars Grammars.Phrase
open SortedMaps SqlTokens
open List hiding all
open VersionKeys (Text)

/-- The operators of an expression. -/
inductive BinaryOp where
  | eq
  | neq
  | lt
  | lte
  | gt
  | gte
  | and
  | or
deriving DecidableEq

/-- The nodes of an expression (`sql_parser.py`). -/
inductive Expr where
  | binary (op : BinaryOp) (left right : Expr)
  | not (operand : Expr)
  | column (name : Value)
  | literal (value : Value)
deriving DecidableEq

/-- A column of a `CREATE TABLE`. -/
structure ColumnDef where
  name : Value
  type : Text
deriving DecidableEq

/-- The statements. -/
inductive Stmt where
  | createTable (table : Value) (columns : List ColumnDef)
  | dropTable (table : Value)
  | insert (table : Value) (columns values : List Value)
  | select (table : Value) (columns : List Value) (condition : Option Expr)
      (orderBy : Option Value) (orderDesc : Bool) (limit : Option Int)
  | update (table : Value) (assignments : Dict Value Value) (condition : Option Expr)
  | delete (table : Value) (condition : Option Expr)

abbrev Parse := Parser Token SqlError

section Parsing

def peek : Parse Token := Grammars.peek .indexError

def consume (expected : Option Kind) : Parse Token := do
  match expected with
  | some kind =>
      let tok ← peek
      if tok.type = kind then
        next .indexError
      else
        throw (.expected kind tok)
  | none => next .indexError

def whileMatch {A : Type} (kind : Kind) (body : A → Parse A) (start : A) : Parse A := do
  let tokens ← get
  whileNext Token.type .indexError .stuck kind body (tokens.length + 1) start

variable (py : Python)

/-- `str.upper`; the values of numbers and of `EOF` have no such method. -/
def upper : Value → Except SqlError Text
  | .text s => .ok (py.upper s)
  | _ => .error .attributeError

def toInt : Value → Except SqlError Int
  | .int i => .ok i
  | .float raw =>
      match py.truncate raw with
      | some i => .ok i
      | none => .error (.badNumber raw)
  | .text s =>
      match py.int s with
      | some i => .ok i
      | none => .error (.badNumber s)
  | .bool b => .ok (if b then 1 else 0)
  | .none => .error .attributeError

section Expressions

variable (parseExpr : Parse Expr)

def parseTerm : Parse Expr := do
  let tok ← peek
  if tok.type = .lparen then
    let _ ← consume none
    let expr ← parseExpr
    let _ ← consume (some .rparen)
    return expr
  else if tok.type = .ident then
    let _ ← consume none
    return .column tok.value
  else if tok.type = .string ∨ tok.type = .number then
    let _ ← consume none
    return .literal tok.value
  else
    throw (.unexpectedInExpression tok)

def opMap : Kind → Option BinaryOp
  | .eq => some .eq
  | .neq => some .neq
  | .lt => some .lt
  | .lte => some .lte
  | .gt => some .gt
  | .gte => some .gte
  | _ => none

def parseCompare : Parse Expr := do
  let left ← parseTerm parseExpr
  match opMap (← peek).type with
  | some op =>
      let _ ← consume none
      let right ← parseTerm parseExpr
      return .binary op left right
  | none => return left

def parseNot : Nat → Parse Expr
  | 0 => throw .stuck
  | fuel + 1 => do
      if (← peek).type = .keyword .not then
        let _ ← consume none
        return .not (← parseNot fuel)
      else
        parseCompare parseExpr

def parseAnd : Parse Expr := do
  let left ← parseNot parseExpr ((← get).length + 1)
  whileMatch (.keyword .and)
    (fun left => do return .binary .and left (← parseNot parseExpr ((← get).length + 1))) left

def parseOr : Parse Expr := do
  let left ← parseAnd parseExpr
  whileMatch (.keyword .or)
    (fun left => do return .binary .or left (← parseAnd parseExpr)) left

end Expressions

/-- The first argument bounds how deep parentheses are nested. -/
def exprWithin : Nat → Parse Expr
  | 0 => throw .stuck
  | fuel + 1 => parseOr (exprWithin fuel)

def parseExpr : Parse Expr := do
  exprWithin ((← get).length + 1)

def parseLiteralValue : Parse Value := do
  let tok ← peek
  if tok.type = .string then
    let _ ← consume none
    return tok.value
  else if tok.type = .number then
    let _ ← consume none
    return tok.value
  else if tok.type = .ident then
    let _ ← consume none
    let name ← upper py tok.value
    if name = "NULL".toList then return .none
    else if name = "TRUE".toList then return .bool true
    else if name = "FALSE".toList then return .bool false
    else return tok.value
  else
    throw (.expectedLiteral tok)

/-- `first` and then, after commas, more of the same kind. -/
def parseList {A : Type} (item : Parse A) : Parse (List A) := do
  let first ← item
  whileMatch .comma (fun items => do return items ++ [← item]) [first]

def parseName : Parse Value := do
  return (← consume (some .ident)).value

def parseColumnList : Parse (List Value) := do
  if (← peek).type = .star then
    let _ ← consume none
    return [.text "*".toList]
  else
    parseList parseName

def parseWhere : Parse (Option Expr) := do
  if (← peek).type = .keyword .where then
    let _ ← consume (some (.keyword .where))
    return some (← parseExpr)
  else
    return none

def parseDirection : Parse Bool := do
  if (← peek).type = .keyword .desc then
    let _ ← consume (some (.keyword .desc))
    return true
  else if (← peek).type = .keyword .asc then
    let _ ← consume (some (.keyword .asc))
    return false
  else
    return false

def parseOrderBy : Parse (Option Value × Bool) := do
  if (← peek).type = .keyword .order then
    let _ ← consume (some (.keyword .order))
    let _ ← consume (some (.keyword .by))
    let column ← parseName
    return (some column, ← parseDirection)
  else
    return (none, false)

def parseLimit : Parse (Option Int) := do
  if (← peek).type = .keyword .limit then
    let _ ← consume (some (.keyword .limit))
    let tok ← consume (some .number)
    return some (← toInt py tok.value)
  else
    return none

def parseSelect : Parse Stmt := do
  let _ ← consume (some (.keyword .select))
  let columns ← parseColumnList
  let _ ← consume (some (.keyword .from))
  let table ← parseName
  let condition ← parseWhere
  let (orderBy, orderDesc) ← parseOrderBy
  let limit ← parseLimit py
  return .select table columns condition orderBy orderDesc limit

def parseInsert : Parse Stmt := do
  let _ ← consume (some (.keyword .insert))
  let _ ← consume (some (.keyword .into))
  let table ← parseName
  let _ ← consume (some .lparen)
  let columns ← parseList parseName
  let _ ← consume (some .rparen)
  let _ ← consume (some (.keyword .values))
  let _ ← consume (some .lparen)
  let values ← parseList (parseLiteralValue py)
  let _ ← consume (some .rparen)
  return .insert table columns values

def parseAssignment (assignments : Dict Value Value) : Parse (Dict Value Value) := do
  let column ← parseName
  let _ ← consume (some .eq)
  return assignments.set column (← parseLiteralValue py)

def parseAssignments : Parse (Dict Value Value) := do
  let first ← parseAssignment py Dict.empty
  whileMatch .comma (parseAssignment py) first

def parseUpdate : Parse Stmt := do
  let _ ← consume (some (.keyword .update))
  let table ← parseName
  let _ ← consume (some (.keyword .set))
  let assignments ← parseAssignments py
  let condition ← parseWhere
  return .update table assignments condition

def parseDelete : Parse Stmt := do
  let _ ← consume (some (.keyword .delete))
  let _ ← consume (some (.keyword .from))
  let table ← parseName
  let condition ← parseWhere
  return .delete table condition

def parseColDef : Parse ColumnDef := do
  let nameTok ← consume (some .ident)
  let typeTok ← consume none
  return ⟨nameTok.value, ← upper py typeTok.value⟩

def parseCreate : Parse Stmt := do
  let _ ← consume (some (.keyword .create))
  let _ ← consume (some (.keyword .table))
  let tableTok ← consume (some .ident)
  let _ ← consume (some .lparen)
  let columns ← parseList (parseColDef py)
  let _ ← consume (some .rparen)
  return .createTable tableTok.value columns

def parseDrop : Parse Stmt := do
  let _ ← consume (some (.keyword .drop))
  let _ ← consume (some (.keyword .table))
  let table ← parseName
  return .dropTable table

def parseStmt : Parse Stmt := do
  let tok ← peek
  match tok.type with
  | .keyword .select => parseSelect py
  | .keyword .insert => parseInsert py
  | .keyword .update => parseUpdate py
  | .keyword .delete => parseDelete
  | .keyword .create => parseCreate py
  | .keyword .drop => parseDrop
  | _ => throw (.unknownStatement tok.value)

def parse : Parse Stmt := do
  let stmt ← parseStmt py
  if (← peek).type = .semi then
    let _ ← consume none
    return stmt
  else
    return stmt

def parseSql (sql : Text) : Except SqlError Stmt := do
  let tokens ← tokenize py sql
  let (stmt, _) ← (parse py).run tokens
  return stmt

end Parsing

/-- The names of the documented grammar. -/
inductive Nonterminal where
  | stmt
  | select
  | insert
  | update
  | delete
  | create
  | drop
  | cols
  | vals
  | val
  | assignments
  | assignment
  | colDefs
  | colDef
  | type
  | expr
  | orExpr
  | andExpr
  | notExpr
  | compare
  | op
  | term

abbrev Pattern := Phrase Kind Nonterminal

abbrev key (k : Keyword) : Pattern := token (.keyword k)

def listOf (item : Pattern) : Pattern := seq item (many (all [token .comma, item]))

def oneOf (kinds : List Kind) (last : Kind) : Pattern :=
  kinds.foldr (fun k p => choice (token k) p) (token last)

/-- The grammar of the docstring of `Parser`. It leaves `cols`, `vals`, `assignments`,
`col_defs` and `op` open. -/
def rules : Nonterminal → Pattern
  | .stmt => choice (rule .select) (choice (rule .insert) (choice (rule .update)
      (choice (rule .delete) (choice (rule .create) (rule .drop)))))
  | .select => all [key .select, rule .cols, key .from, token .ident,
      optional (all [key .where, rule .expr]),
      optional (all [key .order, key .by, token .ident, optional (choice (key .asc) (key .desc))]),
      optional (all [key .limit, token .number])]
  | .insert => all [key .insert, key .into, token .ident, token .lparen, rule .cols,
      token .rparen, key .values, token .lparen, rule .vals, token .rparen]
  | .update => all [key .update, token .ident, key .set, rule .assignments,
      optional (all [key .where, rule .expr])]
  | .delete => all [key .delete, key .from, token .ident, optional (all [key .where, rule .expr])]
  | .create => all [key .create, key .table, token .ident, token .lparen, rule .colDefs,
      token .rparen]
  | .drop => all [key .drop, key .table, token .ident]
  | .cols => choice (token .star) (listOf (token .ident))
  | .vals => listOf (rule .val)
  | .val => oneOf [.string, .number] .ident
  | .assignments => listOf (rule .assignment)
  | .assignment => all [token .ident, token .eq, rule .val]
  | .colDefs => listOf (rule .colDef)
  | .colDef => all [token .ident, rule .type]
  | .type => oneOf ([.text, .int, .integer, .float].map .keyword) (.keyword .boolean)
  | .expr => rule .orExpr
  | .orExpr => seq (rule .andExpr) (many (all [key .or, rule .andExpr]))
  | .andExpr => seq (rule .notExpr) (many (all [key .and, rule .notExpr]))
  | .notExpr => choice (all [key .not, rule .notExpr]) (rule .compare)
  | .compare => seq (rule .term) (optional (all [rule .op, rule .term]))
  | .op => oneOf [.eq, .neq, .lt, .lte, .gt] .gte
  | .term => choice (oneOf [.ident, .string] .number)
      (all [token .lparen, rule .expr, token .rparen])

def sentence : Pattern := seq (rule .stmt) (optional (token .semi))

theorem derives_oneOf {kinds : List Kind} {last k : Kind} (h : k ∈ kinds ++ [last]) :
    Derives rules (oneOf kinds last) [k] := by
  induction kinds with
  | nil =>
    obtain rfl := mem_singleton.mp h
    exact .token k
  | cons k' kinds ih =>
    rcases mem_cons.mp h with rfl | h
    · exact .left (.token k)
    · exact .right (ih h)

abbrev setting : Setting Token SqlError Kind Nonterminal where
  rules := rules
  kind := Token.type
  stuck := .stuck

abbrev Reads {A : Type} (C : Prop) (p : Parse A) (a : Pattern) (ts : List Token) : Prop :=
  Recognizes setting C p a ts

variable {py : Python} {C : Prop} {A B : Type} {a b : Pattern} {k : Kind} {t : Token}
  {ts : List Token}

section Steps

variable {cont : Token → Parse B} {x : A} {H : List Token → Prop}

theorem reads_peek (h : ∀ t rest, ts = t :: rest → Reads C (cont t) b ts) :
    Reads C (peek >>= cont) b ts :=
  recognizes_peek nofun h

theorem reads_consume_bind
    (h : ∀ t rest, ts = t :: rest → t.type = k → Reads C (cont t) b rest) :
    Reads C (consume (some k) >>= cont) (seq (token k) b) ts := by
  rw [consume, bind_assoc]
  refine reads_peek fun t rest heq => ?_
  by_cases hk : t.type = k
  · rw [if_pos hk, heq, ← hk]
    exact recognizes_next_bind (h t rest heq hk)
  · rw [if_neg hk]
    exact recognizes_throw nofun

theorem reads_next_bind (ht : t.type = k) (h : Reads C (cont t) b ts) :
    Reads C (consume none >>= cont) (seq (token k) b) (t :: ts) := by
  subst ht
  exact recognizes_next_bind h

theorem reads_token (h : C → Derives rules a [t.type]) (hcont : Reads C (cont t) nothing ts) :
    Reads C (consume none >>= cont) a (t :: ts) := by
  refine Recognizes.imp (recognizes_next_bind hcont).of_last fun _ hc hks => ?_
  cases hks
  exact h hc

theorem reads_absent : Reads C (pure x) (optional a) ts :=
  recognizes_pure.mono fun _ hks => derives_nothing_iff.mp hks ▸ .absent

theorem reads_whileMatch {body : A → Parse A} (hH : ∀ used rest, H (used ++ rest) → H rest)
    (hbody : ∀ x ts, H ts → Reads C (body x) b ts) (h : H ts) :
    Reads C (whileMatch k body x) (many (seq (token k) b)) ts :=
  recognizes_get (recognizes_whileNext (by nofun) hH hbody (Nat.lt_succ_self _) h)

theorem reads_parseList {item : Parse A} (hH : ∀ used rest, H (used ++ rest) → H rest)
    (hitem : ∀ ts, H ts → Reads C item a ts) (h : H ts) :
    Reads C (parseList item) (listOf a) ts := by
  refine (hitem ts h).bind fun x used rest heq => ?_
  refine reads_whileMatch hH (fun items ts hts => ?_) (hH used rest (heq ▸ h))
  exact (hitem ts hts).bind fun _ _ _ _ => recognizes_pure

theorem reads_parseName : Reads C parseName (token .ident) ts :=
  (reads_consume_bind fun _ _ _ _ => recognizes_pure).of_last

end Steps

section Expressions

variable {e : Parse Expr} {n : Nat}

def Nested (C : Prop) (e : Parse Expr) (n : Nat) : Prop :=
  ∀ ts, ts.length < n → Reads C e (rule .expr) ts

theorem reads_parseTerm (he : Nested C e n) (h : ts.length ≤ n) :
    Reads C (parseTerm e) (rule .term) ts := by
  refine Recognizes.rule (reads_peek fun t rest heq => recognizes_ite (fun hparen => ?_) fun _ =>
    recognizes_ite (fun hident => ?_) fun _ => recognizes_ite (fun hliteral => ?_) fun _ => ?_)
  all_goals subst heq
  · refine Recognizes.mono ?_ fun _ => .right
    exact reads_next_bind hparen ((he rest h).bind fun _ _ _ _ =>
      reads_consume_bind fun _ _ _ _ => recognizes_pure)
  · exact reads_token (fun _ => .left (derives_oneOf (by simp [hident]))) recognizes_pure
  · rcases hliteral with h | h <;>
      exact reads_token (fun _ => .left (derives_oneOf (by simp [h]))) recognizes_pure
  · exact recognizes_throw nofun

theorem mem_of_opMap {op : BinaryOp} (h : opMap k = some op) :
    k ∈ [Kind.eq, .neq, .lt, .lte, .gt] ++ [.gte] := by
  cases k <;> first | contradiction | decide

theorem reads_parseCompare (he : Nested C e n) (h : ts.length ≤ n) :
    Reads C (parseCompare e) (rule .compare) ts := by
  refine Recognizes.rule ((reads_parseTerm he h).bind fun left used rest heq => ?_)
  have hrest : rest.length ≤ n := by
    rw [heq, length_append] at h
    omega
  refine reads_peek fun t rest' heq' => ?_
  split
  · rename_i op hop
    subst heq'
    refine Recognizes.mono (recognizes_next_bind ((reads_parseTerm he ?_).bind
      fun _ _ _ _ => recognizes_pure)) fun ks hks => .present ?_
    · exact (Nat.le_succ _).trans hrest
    · obtain ⟨ls, rfl, hls⟩ := derives_token_seq_iff.mp hks
      have hop' : Derives rules (rule .op) [t.type] := .rule (derives_oneOf (mem_of_opMap hop))
      exact hop'.seq hls
  · exact reads_absent

theorem reads_parseNot (he : Nested C e n) {fuel : Nat} (hfuel : ts.length < fuel)
    (h : ts.length ≤ n) : Reads C (parseNot e fuel) (rule .notExpr) ts := by
  induction fuel generalizing ts with
  | zero => exact absurd hfuel (Nat.not_lt_zero _)
  | succ fuel ih =>
    refine Recognizes.rule (reads_peek fun t rest heq => recognizes_ite (fun hnot => ?_) fun _ =>
      (reads_parseCompare he h).mono fun _ => .right)
    subst heq
    refine Recognizes.mono ?_ fun _ => .left
    refine reads_next_bind hnot (Recognizes.bind (ih ?_ ?_) fun _ _ _ _ => recognizes_pure)
    · exact Nat.lt_of_succ_lt_succ hfuel
    · exact (Nat.le_succ _).trans h

theorem length_le_of_append {used rest : List Token} (h : (used ++ rest).length ≤ n) :
    rest.length ≤ n := by
  rw [length_append] at h
  omega

theorem reads_parseAnd (he : Nested C e n) (h : ts.length ≤ n) :
    Reads C (parseAnd e) (rule .andExpr) ts := by
  have hnot : ∀ ts : List Token, ts.length ≤ n →
      Reads C (parseNot e (ts.length + 1)) (rule .notExpr) ts :=
    fun ts hts => reads_parseNot he (Nat.lt_succ_self _) hts
  refine Recognizes.rule (recognizes_get ((hnot ts h).bind fun left used rest heq => ?_))
  refine reads_whileMatch (H := fun ts => ts.length ≤ n) (fun _ _ => length_le_of_append)
    (fun left ts hts => ?_) (length_le_of_append (heq ▸ h))
  exact recognizes_get ((hnot ts hts).bind fun _ _ _ _ => recognizes_pure)

theorem reads_parseOr (he : Nested C e n) (h : ts.length ≤ n) :
    Reads C (parseOr e) (rule .orExpr) ts := by
  refine Recognizes.rule ((reads_parseAnd he h).bind fun left used rest heq => ?_)
  refine reads_whileMatch (H := fun ts => ts.length ≤ n) (fun _ _ => length_le_of_append)
    (fun left ts hts => ?_) (length_le_of_append (heq ▸ h))
  exact (reads_parseAnd he hts).bind fun _ _ _ _ => recognizes_pure

theorem nested_exprWithin (n : Nat) : Nested C (exprWithin n) n := by
  induction n with
  | zero => exact fun ts h => absurd h (Nat.not_lt_zero _)
  | succ n ih => exact fun ts h => Recognizes.rule (reads_parseOr ih (Nat.le_of_lt_succ h))

theorem reads_parseExpr : Reads C parseExpr (rule .expr) ts :=
  recognizes_get (nested_exprWithin _ ts (Nat.lt_succ_self _))

end Expressions

theorem upper_ne_stuck (v : Value) : upper py v ≠ .error .stuck := by
  cases v <;> exact nofun

theorem toInt_ne_stuck (v : Value) : toInt py v ≠ .error .stuck := by
  unfold toInt
  repeat' split
  all_goals simp

theorem reads_parseLiteralValue : Reads C (parseLiteralValue py) (rule .val) ts := by
  refine Recognizes.rule (reads_peek fun t rest heq => recognizes_ite (fun hstring => ?_) fun _ =>
    recognizes_ite (fun hnumber => ?_) fun _ => recognizes_ite (fun hident => ?_) fun _ => ?_)
  all_goals subst heq
  · exact reads_token (fun _ => derives_oneOf (by simp [hstring])) recognizes_pure
  · exact reads_token (fun _ => derives_oneOf (by simp [hnumber])) recognizes_pure
  · refine reads_token (fun _ => derives_oneOf (by simp [hident]))
      (recognizes_lift (upper_ne_stuck t.value) fun name => ?_)
    exact recognizes_ite (fun _ => recognizes_pure) fun _ => recognizes_ite
      (fun _ => recognizes_pure) fun _ => recognizes_ite (fun _ => recognizes_pure) fun _ =>
      recognizes_pure
  · exact recognizes_throw nofun

theorem reads_parseNames : Reads C (parseList parseName) (listOf (token .ident)) ts :=
  reads_parseList (H := fun _ => True) (fun _ _ => id) (fun _ _ => reads_parseName) trivial

theorem reads_parseColumnList : Reads C parseColumnList (rule .cols) ts := by
  refine Recognizes.rule (reads_peek fun t rest heq => recognizes_ite (fun hstar => ?_) fun _ =>
    reads_parseNames.mono fun _ => .right)
  subst heq
  exact reads_token (fun _ => .left (hstar ▸ .token _)) recognizes_pure

theorem reads_parseWhere :
    Reads C parseWhere (optional (all [key .where, rule .expr])) ts := by
  refine reads_peek fun t rest heq => recognizes_ite (fun _ => ?_) fun _ => reads_absent
  refine Recognizes.mono ?_ fun _ => .present
  exact reads_consume_bind fun _ _ _ _ => reads_parseExpr.bind fun _ _ _ _ => recognizes_pure

theorem reads_parseDirection :
    Reads C parseDirection (optional (choice (key .asc) (key .desc))) ts := by
  refine reads_peek fun t rest _ => recognizes_ite (fun _ => ?_) fun _ =>
    reads_peek fun t rest _ => recognizes_ite (fun _ => ?_) fun _ => reads_absent
  · exact (reads_consume_bind fun _ _ _ _ => recognizes_pure).of_last.mono
      fun _ hks => .present (.right hks)
  · exact (reads_consume_bind fun _ _ _ _ => recognizes_pure).of_last.mono
      fun _ hks => .present (.left hks)

theorem reads_parseOrderBy : Reads C parseOrderBy (optional (all [key .order, key .by,
    token .ident, optional (choice (key .asc) (key .desc))])) ts := by
  refine reads_peek fun t rest _ => recognizes_ite (fun _ => ?_) fun _ => reads_absent
  refine Recognizes.mono ?_ fun _ => .present
  exact reads_consume_bind fun _ _ _ _ => reads_consume_bind fun _ _ _ _ =>
    reads_parseName.bind fun _ _ _ _ => reads_parseDirection.bind fun _ _ _ _ => recognizes_pure

theorem reads_parseLimit :
    Reads C (parseLimit py) (optional (all [key .limit, token .number])) ts := by
  refine reads_peek fun t rest _ => recognizes_ite (fun _ => ?_) fun _ => reads_absent
  refine Recognizes.mono ?_ fun _ => .present
  exact reads_consume_bind fun _ _ _ _ => reads_consume_bind fun tok _ _ _ =>
    recognizes_lift (toInt_ne_stuck tok.value) fun _ => recognizes_pure

theorem reads_parseSelect : Reads C (parseSelect py) (rule .select) ts :=
  Recognizes.rule (reads_consume_bind fun _ _ _ _ => reads_parseColumnList.bind fun _ _ _ _ =>
    reads_consume_bind fun _ _ _ _ => reads_parseName.bind fun _ _ _ _ =>
    reads_parseWhere.bind fun _ _ _ _ => reads_parseOrderBy.bind fun _ _ _ _ =>
    reads_parseLimit.bind fun _ _ _ _ => recognizes_pure)

theorem reads_parseInsert : Reads C (parseInsert py) (rule .insert) ts := by
  have hcols : ∀ ts, Reads C (parseList parseName) (rule .cols) ts :=
    fun ts => Recognizes.rule (reads_parseNames.mono fun _ => .right)
  have hvals : ∀ ts, Reads C (parseList (parseLiteralValue py)) (rule .vals) ts :=
    fun ts => Recognizes.rule (reads_parseList (H := fun _ => True) (fun _ _ => id)
      (fun _ _ => reads_parseLiteralValue) trivial)
  exact Recognizes.rule (reads_consume_bind fun _ _ _ _ => reads_consume_bind fun _ _ _ _ =>
    reads_parseName.bind fun _ _ _ _ => reads_consume_bind fun _ _ _ _ =>
    (hcols _).bind fun _ _ _ _ => reads_consume_bind fun _ _ _ _ =>
    reads_consume_bind fun _ _ _ _ => reads_consume_bind fun _ _ _ _ =>
    (hvals _).bind fun _ _ _ _ => reads_consume_bind fun _ _ _ _ => recognizes_pure)

theorem reads_parseAssignment (assignments : Dict Value Value) :
    Reads C (parseAssignment py assignments) (rule .assignment) ts :=
  Recognizes.rule (reads_parseName.bind fun _ _ _ _ => reads_consume_bind fun _ _ _ _ =>
    reads_parseLiteralValue.bind fun _ _ _ _ => recognizes_pure)

theorem reads_parseAssignments : Reads C (parseAssignments py) (rule .assignments) ts := by
  refine Recognizes.rule ((reads_parseAssignment Dict.empty).bind fun first _ _ _ => ?_)
  exact reads_whileMatch (H := fun _ => True) (fun _ _ => id)
    (fun assignments _ _ => (reads_parseAssignment assignments).last) trivial

theorem reads_parseUpdate : Reads C (parseUpdate py) (rule .update) ts :=
  Recognizes.rule (reads_consume_bind fun _ _ _ _ => reads_parseName.bind fun _ _ _ _ =>
    reads_consume_bind fun _ _ _ _ => reads_parseAssignments.bind fun _ _ _ _ =>
    reads_parseWhere.bind fun _ _ _ _ => recognizes_pure)

theorem reads_parseDelete : Reads C parseDelete (rule .delete) ts :=
  Recognizes.rule (reads_consume_bind fun _ _ _ _ => reads_consume_bind fun _ _ _ _ =>
    reads_parseName.bind fun _ _ _ _ => reads_parseWhere.bind fun _ _ _ _ => recognizes_pure)

/-- Every name is followed by one of the type words. -/
def Typed : List Token → Prop
  | a :: b :: ts => (a.type = .ident →
      b.type ∈ [Keyword.text, .int, .integer, .float].map Kind.keyword ++ [.keyword .boolean]) ∧
      Typed (b :: ts)
  | _ => True

theorem Typed.tail {t : Token} (h : Typed (t :: ts)) : Typed ts := by
  cases ts with
  | nil => trivial
  | cons t' ts => exact h.2

theorem Typed.suffix {used rest : List Token} (h : Typed (used ++ rest)) : Typed rest := by
  induction used with
  | nil => exact h
  | cons t used ih => exact ih h.tail

theorem reads_parseColDef (h : C → Typed ts) : Reads C (parseColDef py) (rule .colDef) ts := by
  refine Recognizes.rule (reads_consume_bind fun name rest heq hname => ?_)
  subst heq
  cases rest with
  | nil => exact SqlError.noConfusion
  | cons type rest =>
    have htype : C → Derives rules (rule .type) [type.type] :=
      fun hc => .rule (derives_oneOf ((h hc).1 hname))
    exact (reads_token htype (recognizes_lift (upper_ne_stuck type.value)
      fun _ => recognizes_pure)).last

/-- In a `CREATE TABLE`, every name behind the parenthesis has a type. -/
def TypedColumns (ts : List Token) : Prop :=
  (ts.head?).map Token.type = some (.keyword .create) → Typed (ts.drop 4)

theorem reads_parseCreate (h : C → Typed (ts.drop 4)) :
    Reads C (parseCreate py) (rule .create) ts := by
  refine Recognizes.rule (reads_consume_bind fun _ ts₁ h₁ _ => reads_consume_bind fun _ ts₂ h₂ _ =>
    reads_consume_bind fun _ ts₃ h₃ _ => reads_consume_bind fun _ ts₄ h₄ _ => ?_)
  subst h₁ h₂ h₃ h₄
  have hcolumns : Reads C (parseList (parseColDef py)) (rule .colDefs) ts₄ :=
    Recognizes.rule (reads_parseList (H := fun ts => C → Typed ts)
      (fun _ _ hts hc => (hts hc).suffix) (fun _ => reads_parseColDef) h)
  exact hcolumns.bind fun _ _ _ _ => reads_consume_bind fun _ _ _ _ => recognizes_pure

theorem reads_parseDrop : Reads C parseDrop (rule .drop) ts :=
  Recognizes.rule (reads_consume_bind fun _ _ _ _ => reads_consume_bind fun _ _ _ _ =>
    reads_parseName.bind fun _ _ _ _ => recognizes_pure)

theorem reads_parseStmt (h : C → TypedColumns ts) : Reads C (parseStmt py) (rule .stmt) ts := by
  refine Recognizes.rule (reads_peek fun t rest heq => ?_)
  split
  · exact reads_parseSelect.mono fun _ hks => .left hks
  · exact reads_parseInsert.mono fun _ hks => .right (.left hks)
  · exact reads_parseUpdate.mono fun _ hks => .right (.right (.left hks))
  · exact reads_parseDelete.mono fun _ hks => .right (.right (.right (.left hks)))
  · rename_i ht
    have hcreate : (ts.head?).map Token.type = some (.keyword .create) := by
      rw [heq, head?_cons, Option.map_some, ht]
    exact (reads_parseCreate fun hc => h hc hcreate).mono
      fun _ hks => .right (.right (.right (.right (.left hks))))
  · exact reads_parseDrop.mono fun _ hks => .right (.right (.right (.right (.right hks))))
  · exact recognizes_throw nofun

/-- What the parser takes is a statement of the grammar with at most one semicolon, if the
columns of a `CREATE TABLE` have types. -/
theorem recognizes_parse (ts : List Token) :
    Recognizes setting (TypedColumns ts) (parse py) sentence ts := by
  refine (reads_parseStmt id).bind fun stmt used rest heq => ?_
  refine reads_peek fun t rest' heq' => recognizes_ite (fun hsemi => ?_) fun _ => reads_absent
  subst heq'
  exact reads_token (fun _ => .present (hsemi ▸ .token _)) recognizes_pure

theorem parseSql_ne_stuck {sql : Text} : parseSql py sql ≠ .error .stuck := by
  intro h
  rcases bind_eq_error h with htokens | ⟨tokens, -, h⟩
  · rcases error_of_tokensFrom (Nat.succ_pos _) (Nat.lt_succ_self _) htokens with h | ⟨_, h⟩
    · exact h
    · contradiction
  · rcases bind_eq_error h with hparse | ⟨_, -, h⟩
    · have hparser : Recognizes _ _ (parse py) _ _ := recognizes_parse tokens
      unfold Recognizes at hparser
      rw [hparse] at hparser
      exact hparser rfl
    · contradiction

/-- The classes of characters and the numbers of ASCII texts. -/
def asciiPython : Python where
  isSpace := Char.isWhitespace
  isDigit := Char.isDigit
  isAlpha := Char.isAlpha
  isAlnum := Char.isAlphanum
  isAlnum_of_isAlpha c hc := by simp [Char.isAlphanum, hc]
  upper s := s.map Char.toUpper
  int raw :=
    match raw with
    | '-' :: digits => some (-(Nat.ofDigitChars 10 digits 0 : Int))
    | digits => some (Nat.ofDigitChars 10 digits 0 : Int)
  isFloat _ := true
  truncate _ := none

section Literals

variable {py : Python} {quote : Char}

def escape (quote : Char) (s : Text) : Text :=
  s.flatMap fun c => if c = '\\' ∨ c = quote then ['\\', c] else [c]

def literal (quote : Char) (s : Text) : Text := quote :: (escape quote s ++ [quote])

theorem quoted_cons {c : Char} {cs : Text} (hquote : c ≠ quote) (hc : c ≠ '\\') :
    quoted quote (c :: cs) = c :: quoted quote cs := by
  cases cs <;> simp [quoted, hquote, hc]

theorem escape_cons (c : Char) (s : Text) : escape quote (c :: s) =
    (if c = '\\' ∨ c = quote then ['\\', c] else [c]) ++ escape quote s :=
  flatMap_cons

theorem length_le_escape (quote : Char) (s : Text) : s.length ≤ (escape quote s).length := by
  induction s with
  | nil => exact Nat.zero_le _
  | cons c s ih =>
    rw [escape_cons]
    split <;> simp <;> omega

theorem quoted_escape (hquote : quote ≠ '\\') (s : Text) :
    quoted quote (escape quote s ++ [quote]) = escape quote s := by
  induction s with
  | nil => simp [escape, quoted]
  | cons c s ih =>
    rw [escape_cons]
    split
    · simp [quoted, hquote.symm, ih]
    · rename_i hc
      rw [not_or] at hc
      rw [append_assoc, singleton_append, quoted_cons hc.2 hc.1, ih, singleton_append]

theorem escape_eq_self_iff (s : Text) : escape quote s = s ↔ '\\' ∉ s ∧ quote ∉ s := by
  induction s with
  | nil => simp [escape]
  | cons c s ih =>
    rw [escape_cons]
    split
    · rename_i hc
      refine iff_of_false (fun h => ?_) fun h => ?_
      · have hlength := congrArg List.length h
        have hle := length_le_escape quote s
        simp only [length_append, length_cons, length_nil] at hlength
        omega
      · rcases hc with rfl | rfl <;> simp at h
    · rename_i hc
      rw [not_or] at hc
      simp [ih, Ne.symm hc.1, Ne.symm hc.2]

/-- The value of the token keeps the backslashes. -/
theorem tokenize_literal (hquote : quote = '\'' ∨ quote = '"') (hspace : py.isSpace quote = false)
    (s : Text) : tokenize py (literal quote s) =
      .ok [⟨.string, .text (escape quote s), 0⟩, ⟨.eof, .none, (literal quote s).length⟩] := by
  have hslash : quote ≠ '\\' ∧ quote ≠ '-' := by rcases hquote with rfl | rfl <;> decide
  have hlexeme : lexeme py 0 quote (escape quote s ++ [quote]) =
      .ok (some (.string, .text (escape quote s)), (literal quote s).length) := by
    simp [lexeme, hspace, hslash.2, hquote, quoted_escape hslash.1, literal]
  have hlast : tokensFrom py (literal quote s) (literal quote s).length (literal quote s).length =
      .ok [⟨.eof, .none, (literal quote s).length⟩] := by
    simp [literal, tokensFrom]
  have hdrop : (literal quote s).drop 0 = quote :: (escape quote s ++ [quote]) := rfl
  rw [tokenize, tokensFrom, hdrop]
  simp only [hlexeme, Nat.zero_add]
  exact congrArg (· >>= fun tokens => .ok (⟨.string, .text (escape quote s), 0⟩ :: tokens)) hlast

theorem tokenize_literal_iff (hquote : quote = '\'' ∨ quote = '"')
    (hspace : py.isSpace quote = false) (s : Text) : tokenize py (literal quote s) =
      .ok [⟨.string, .text s, 0⟩, ⟨.eof, .none, (literal quote s).length⟩] ↔
        '\\' ∉ s ∧ quote ∉ s := by
  rw [tokenize_literal hquote hspace, ← escape_eq_self_iff]
  simp

theorem tokenize_double_quoted : tokenize asciiPython (literal '"' "it's".toList) =
    .ok [⟨.string, .text "it's".toList, 0⟩, ⟨.eof, .none, 6⟩] :=
  (tokenize_literal_iff (.inr rfl) (by decide) _).mpr (by decide)

theorem backslashes_kept : ¬∀ (py : Python) (quote : Char) (s : Text),
    quote = '\'' ∨ quote = '"' → py.isSpace quote = false → tokenize py (literal quote s) =
      .ok [⟨.string, .text s, 0⟩, ⟨.eof, .none, (literal quote s).length⟩] := by
  intro hall
  exact absurd (hall asciiPython '\'' "it's".toList (.inl rfl) (by decide)) (by decide)

end Literals

end LiteDB.SqlParser
