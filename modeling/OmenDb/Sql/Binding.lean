import OmenDb.Lib.Loop
import OmenDb.Sql.Coerce

/-! The type inference of `bind`. The whole statement is traversed again and again, with the types of
the parameters and the output domains of every set expression kept between passes, until a pass
changes neither. Outputs still unknown then choose text, and the passes go on from there. A traversal
is known here by its calls: it raises a parameter or constrains the outputs of a set expression, and
what it is told decides how it goes on. -/
namespace OmenDb.Sql.Binding

/-- The type of an expression. A string literal is unknown at first. -/
structure Ty where
  kind : Option ColumnType
  string : Bool
  deriving DecidableEq

def Ty.known (kind : ColumnType) : Ty := ⟨some kind, false⟩

def Ty.common (self other : Ty) : DbResult Ty := do
  return ⟨← commonType self.kind other.kind, self.string || other.string⟩

structure Column where
  name : String
  ty : Ty
  deriving DecidableEq

abbrev Context := List (Option ColumnType)

/-- What one pass leaves to the next, with its flag. A set expression without an entry has the empty
context, which is what its entry begins with. -/
structure Inference (Node : Type) where
  parameters : Context
  contexts : Node → Context
  outputsChanged : Bool

def zipUpdate {α β : Type} (f : α → β → DbResult α) : List α → List β → DbResult (List α)
  | a :: as, b :: bs => do
    let first ← f a b
    let rest ← zipUpdate f as bs
    return first :: rest
  | as, _ => .ok as

/-- The type of a parameter that is not declared, after one more use of it. -/
def raiseParameter (name : String) (current : Option ColumnType) (expected : ColumnType) :
    DbResult (Option ColumnType) :=
  match current with
  | none => .ok (some expected)
  | some previous =>
    (commonType (some previous) (some expected)).mapError fun _ =>
      .sqlDatatypeMismatch ("conflicting types for " ++ name ++ ": " ++ previous.debug ++ " and " ++ expected.debug)

namespace Inference

variable {Node : Type}

/-- `parameter`, with the index that its name stands for. -/
def parameter (hints : Context) (name : String) (index : ℕ) (expected : Option ColumnType) (s : Inference Node) :
    DbResult (Ty × Inference Node) :=
  match s.parameters[index]? with
  | none => .error (.sqlParameter "parameter outside statement signature")
  | some current =>
    match expected with
    | none => .ok (⟨current, false⟩, s)
    | some expected =>
      match hints[index]?.join with
      | some hint => do
        let _ ← (commonType (some hint) (some expected)).mapError fun _ =>
          .sqlDatatypeMismatch (name ++ " declared " ++ hint.debug ++ ", required " ++ expected.debug)
        return (Ty.known hint, s)
      | none => do
        let kind ← raiseParameter name current expected
        return (⟨kind, false⟩, { s with parameters := s.parameters.set index kind })

def constrainOutputs [DecidableEq Node] (body : Node) (expected : Context) (s : Inference Node) :
    DbResult (Inference Node) := do
  let context := s.contexts body
  let resized := context ++ List.replicate (expected.length - context.length) none
  let constrained ← zipUpdate commonType resized expected
  return ⟨s.parameters, Function.update s.contexts body constrained,
    s.outputsChanged || decide (context.length < expected.length) || decide (resized ≠ constrained)⟩

end Inference

/-- A traversal as the calls it makes. It can also read `prefer_outputs`, and an error ends it. -/
inductive Visit (Node α : Type)
  | done (a : α)
  | fail (error : DbError)
  | parameter (name : String) (index : ℕ) (expected : Option ColumnType) (next : Ty → Visit Node α)
  | constrain (body : Node) (expected : Context) (next : Context → Visit Node α)
  | prefer (next : Bool → Visit Node α)

namespace Visit

variable {Node α β : Type}

def andThen : Visit Node α → (α → Visit Node β) → Visit Node β
  | .done a, f => f a
  | .fail error, _ => .fail error
  | .parameter name index expected next, f => .parameter name index expected fun ty => (next ty).andThen f
  | .constrain body expected next, f => .constrain body expected fun context => (next context).andThen f
  | .prefer next, f => .prefer fun b => (next b).andThen f

instance : Monad (Visit Node) where
  pure := .done
  bind := andThen

/-- Constrain the outputs of a set expression and read its context. -/
def constrainOutputs (body : Node) (expected : Context) : Visit Node Context := .constrain body expected .done

def preferOutputs : Visit Node Bool := .prefer .done

def ofResult : DbResult α → Visit Node α
  | .ok a => .done a
  | .error error => .fail error

def run [DecidableEq Node] (hints : Context) (preferOutputs : Bool) :
    Visit Node α → Inference Node → DbResult (α × Inference Node)
  | .done a, s => .ok (a, s)
  | .fail error, _ => .error error
  | .parameter name index expected next, s => do
    let told ← s.parameter hints name index expected
    (next told.1).run hints preferOutputs told.2
  | .constrain body expected next, s => do
    let s ← s.constrainOutputs body expected
    (next (s.contexts body)).run hints preferOutputs s
  | .prefer next, s => (next preferOutputs).run hints preferOutputs s

/-- No list of outputs is wider than a bound, if none is that the traversal is told of. -/
def Within (bound : ℕ) (post : α → Prop) : Visit Node α → Prop
  | .done a => post a
  | .fail _ => True
  | .parameter _ _ _ next => ∀ ty, (next ty).Within bound post
  | .constrain _ expected next =>
    expected.length ≤ bound ∧ ∀ context, context.length ≤ bound → (next context).Within bound post
  | .prefer next => ∀ b, (next b).Within bound post

variable {bound : ℕ} {P : α → Prop} {Q : β → Prop}

theorem Within.bind {x : Visit Node α} {f : α → Visit Node β} (hx : x.Within bound P)
    (hf : ∀ a, P a → (f a).Within bound Q) : (x >>= f).Within bound Q := by
  change (x.andThen f).Within bound Q
  induction x with
  | done a => exact hf a hx
  | fail error => trivial
  | parameter name index expected next ih => exact fun ty => ih ty (hx ty)
  | constrain body expected next ih => exact ⟨hx.1, fun context hcontext => ih context (hx.2 context hcontext)⟩
  | prefer next ih => exact fun b => ih b (hx b)

theorem Within.mono {x : Visit Node α} {R : α → Prop} (hx : x.Within bound P) (h : ∀ a, P a → R a) :
    x.Within bound R := by
  induction x with
  | done a => exact h a hx
  | fail error => trivial
  | parameter name index expected next ih => exact fun ty => ih ty (hx ty)
  | constrain body expected next ih => exact ⟨hx.1, fun context hcontext => ih context (hx.2 context hcontext)⟩
  | prefer next ih => exact fun b => ih b (hx b)

theorem within_constrainOutputs {body : Node} {expected : Context} (h : expected.length ≤ bound) :
    (constrainOutputs body expected).Within bound fun context => context.length ≤ bound :=
  ⟨h, fun _ hcontext => hcontext⟩

theorem within_preferOutputs : (preferOutputs : Visit Node Bool).Within bound fun _ => True := fun _ => trivial

theorem within_ofResult {x : DbResult α} (h : ∀ a, x = .ok a → P a) : (ofResult x : Visit Node α).Within bound P := by
  cases x with
  | ok a => exact h a rfl
  | error error => trivial

end Visit

inductive SetOperator
  | union | except | intersect | minus
  deriving DecidableEq

inductive SetQuantifier
  | all | distinct | byName | allByName | distinctByName | none
  deriving DecidableEq

/-- An item of a SELECT list. An expression is typed under the hint for its place. -/
inductive Item (Node : Type)
  | expr (name : String) (type : Option ColumnType → Visit Node Ty)
  | wildcard
  | unsupported

def Item.width {Node : Type} (scope : ℕ) : Item Node → ℕ
  | .expr _ _ => 1
  | .wildcard => scope
  | .unsupported => 0

/-- A SELECT: its FROM, WHERE and GROUP BY, which give the columns that a wildcard stands for, its list
and its HAVING. Expressions and clauses are known by their traversals, which may traverse queries of
their own. -/
structure Select (Node : Type) (bound : ℕ) where
  scope : Visit Node (List Column)
  items : List (Item Node)
  having : List Column → Visit Node Unit
  scopeWidth : ℕ
  fits : (items.map (Item.width scopeWidth)).sum ≤ bound
  scopeWithin : scope.Within bound fun columns => columns.length ≤ scopeWidth
  itemsWithin : ∀ name type, .expr name type ∈ items → ∀ hint, (type hint).Within bound fun _ => True
  havingWithin : ∀ columns, (having columns).Within bound fun _ => True

/-- A set expression, with the node that identifies it. -/
inductive SetExpr (Node : Type) (bound : ℕ)
  | select (body : Node) (select : Select Node bound)
  | setOperation (body : Node) (op : SetOperator) (quantifier : SetQuantifier) (left right : SetExpr Node bound)
  | other (body : Node)

section Statements

variable {Node : Type} {bound : ℕ}

def SetExpr.node : SetExpr Node bound → Node
  | .select body _ | .setOperation body _ _ _ _ | .other body => body

def kinds (columns : List Column) : Context := columns.map (·.ty.kind)

/-- The columns of a set operation: the common types of both sides, in the context of the operation. -/
def combine (lhs rhs : List Column) (context : Context) : DbResult (List Column) :=
  if lhs.length ≠ rhs.length then .error (.invalidState "set operation sides have different column counts")
  else do
    let both ← zipUpdate (fun (l r : Column) => return { l with ty := ← l.ty.common r.ty }) lhs rhs
    zipUpdate (fun (c : Column) kind => return { c with ty := { c.ty with kind := ← commonType c.ty.kind kind } })
      both context

def checkOperation (op : SetOperator) (quantifier : SetQuantifier) : DbResult Unit :=
  if op = .minus ∨ ¬(quantifier = .none ∨ quantifier = .distinct ∨ quantifier = .all) then
    .error (.sqlUnsupported "set operation" "unsupported operator or quantifier")
  else if quantifier = .all ∧ op ≠ .union
    then .error (.sqlUnsupported "set operation" "ALL is only supported for UNION")
  else .ok ()

def project (scope : List Column) (expected : Context) : List (Item Node) → List Column → Visit Node (List Column)
  | [], columns => .done columns
  | .expr name type :: items, columns => do
    let ty ← type expected[columns.length]?.join
    project scope expected items (columns ++ [⟨name, ty⟩])
  | .wildcard :: items, columns =>
    if scope = [] then .fail (.sqlUnsupported "SELECT" "unsupported projection item")
    else project scope expected items (columns ++ scope)
  | .unsupported :: _, _ => .fail (.sqlUnsupported "SELECT" "unsupported projection item")

def select (s : Select Node bound) (expected : Context) : Visit Node (List Column) := do
  let scope ← s.scope
  let columns ← project scope expected s.items []
  Visit.ofResult (if columns = [] then .error (.sqlUnsupported "SELECT" "at least one column is required") else .ok ())
  s.having columns
  return columns

def setExpr : SetExpr Node bound → Context → Visit Node (List Column)
  | .select body s, expected => do
    let context ← Visit.constrainOutputs body expected
    let columns ← select s context
    let _ ← Visit.constrainOutputs body (kinds columns)
    return columns
  | .setOperation body op quantifier left right, expected => do
    let context ← Visit.constrainOutputs body expected
    Visit.ofResult (checkOperation op quantifier)
    let lhs ← setExpr left context
    let rhs ← setExpr right context
    let columns ← Visit.ofResult (combine lhs rhs context)
    let _ ← Visit.constrainOutputs body (kinds columns)
    return columns
  | .other body, expected => do
    let _ ← Visit.constrainOutputs body expected
    .fail (.sqlUnsupported "SELECT" "only SELECT and supported set operations are executable")

/-- A query: its body, and the traversal of its ORDER BY and LIMIT. -/
structure Query (Node : Type) (bound : ℕ) where
  plain : Bool
  body : SetExpr Node bound
  clauses : List Column → Visit Node Unit
  within : ∀ columns, (clauses columns).Within bound fun _ => True

def preferred (columns : List Column) : Context := columns.map fun column => some (column.ty.kind.getD .text)

/-- Only when the outputs may choose does an unknown one become text. -/
def chooseOutputs (body : SetExpr Node bound) (columns : List Column) (prefer : Bool) : Visit Node Context :=
  if prefer ∧ ∃ column ∈ columns, column.ty.kind = none then Visit.constrainOutputs body.node (preferred columns)
    else .done []

def query (q : Query Node bound) (expected : Context) : Visit Node (List Column) := do
  Visit.ofResult (if q.plain then .ok () else .error (.sqlUnsupported "SELECT" "query modifiers are not supported"))
  let columns ← setExpr q.body expected
  let prefer ← Visit.preferOutputs
  let _ ← chooseOutputs q.body columns prefer
  q.clauses columns
  return columns

/-- A statement: a query, or one of the others, known by its traversal. -/
inductive Statement (Node : Type) (bound : ℕ)
  | query (query : Query Node bound)
  | other (traverse : Visit Node (List Column)) (within : traverse.Within bound fun _ => True)

def statement : Statement Node bound → Visit Node (List Column)
  | .query q => query q []
  | .other traverse _ => traverse

end Statements

structure Passes (Node : Type) where
  preferOutputs : Bool
  state : Inference Node

structure BoundStatement where
  parameterTypes : Context
  columns : List SqlColumn
  deriving DecidableEq

section Loop

variable {Node : Type} [DecidableEq Node] {bound : ℕ}

def Inference.fresh (s : Inference Node) : Inference Node := ⟨s.parameters, s.contexts, false⟩

def pass (hints : Context) (source : Statement Node bound) (p : Passes Node) :
    DbResult (List Column × Inference Node) :=
  (statement source).run hints p.preferOutputs p.state.fresh

/-- One turn of the loop of `bind`. -/
def turn (hints : Context) (source : Statement Node bound) (p : Passes Node) : Passes Node ⊕ DbResult BoundStatement :=
  match pass hints source p with
  | .error error => .inr (.error error)
  | .ok (columns, s) =>
    if s.parameters = p.state.parameters ∧ s.outputsChanged = false ∧ p.preferOutputs = false then .inl ⟨true, s⟩
    else if s.parameters = p.state.parameters ∧ s.outputsChanged = false then
      .inr (.ok ⟨s.parameters, columns.map fun column => ⟨column.name, some (column.ty.kind.getD .text)⟩⟩)
    else .inl ⟨p.preferOutputs, s⟩

def start (hints : Context) (count : ℕ) : Passes Node :=
  ⟨false, hints ++ List.replicate (count - hints.length) none, fun _ => [], false⟩

/-- `bind` from the parsed statement and its number of parameters on, up to the rewriting of the bound statement. -/
def bind (hints : Context) (count : ℕ) (source : Statement Node bound) (fuel : ℕ) : Option (DbResult BoundStatement) :=
  if count < hints.length then
    some (.error (.sqlParameter (if count = 0 then "statement does not reference supplied parameters"
      else "more declared types than parameter positions")))
  else iterate (turn hints source) fuel (start hints count)

end Loop

def promotion : ColumnType → Option ℕ
  | .u64 => some 0
  | .i64 => some 1
  | .decimal => some 2
  | .float64 => some 3
  | _ => none

inductive Raises : Option ColumnType → Option ColumnType → Prop
  | same (kind : Option ColumnType) : Raises kind kind
  | known (kind : ColumnType) : Raises none (some kind)
  | promoted {low high : ColumnType} {i j : ℕ} :
    promotion low = some i → promotion high = some j → i < j → Raises (some low) (some high)

def rank : Option ColumnType → ℕ
  | none => 0
  | some kind => (promotion kind).elim 4 (· + 1)

theorem rank_le (kind : Option ColumnType) : rank kind ≤ 4 := by
  cases kind with
  | none => decide
  | some kind => cases kind <;> decide

theorem rank_some_pos (kind : ColumnType) : 0 < rank (some kind) := by
  cases kind <;> decide

namespace Raises

variable {a b c : Option ColumnType}

theorem trans (hab : Raises a b) (hbc : Raises b c) : Raises a c := by
  cases hab with
  | same => exact hbc
  | known kind =>
    cases hbc with
    | same => exact .known kind
    | promoted _ _ _ => exact .known _
  | promoted hlow hmid hlt =>
    cases hbc with
    | same => exact .promoted hlow hmid hlt
    | promoted hmid' hhigh hlt' =>
      rw [hmid] at hmid'
      cases hmid'
      exact .promoted hlow hhigh (hlt.trans hlt')

theorem eq_or_rank_lt (h : Raises a b) : a = b ∨ rank a < rank b := by
  cases h with
  | same => exact .inl rfl
  | known kind => exact .inr (rank_some_pos kind)
  | promoted hlow hhigh hlt =>
    refine .inr ?_
    simp only [rank, hlow, hhigh, Option.elim_some]
    omega

end Raises

theorem commonType_raises {a b c : Option ColumnType} (h : commonType a b = .ok c) : Raises a c := by
  cases a with
  | none =>
    cases c with
    | none => exact .same none
    | some kind => exact .known kind
  | some a =>
    cases b with
    | none =>
      cases h
      exact .same _
    | some b =>
      cases a <;> cases b <;> simp only [commonType, ColumnType.numeric, reduceCtorEq, ↓reduceIte, Bool.and_true,
        Bool.and_false, Bool.false_eq_true, or_false, or_true, Except.ok.injEq] at h <;> subst h <;>
        first | exact .same _ | exact .promoted rfl rfl (by decide)

/-- A list of types whose places each move up, with new places at its end. -/
inductive Widened : Context → Context → Prop
  | nil (context : Context) : Widened [] context
  | cons {a b : Option ColumnType} {as bs : Context} : Raises a b → Widened as bs → Widened (a :: as) (b :: bs)

def weight (context : Context) : ℕ := context.length + (context.map rank).sum

theorem weight_le (context : Context) : weight context ≤ 5 * context.length := by
  induction context with
  | nil => decide
  | cons a as ih =>
    have ha := rank_le a
    simp only [weight, List.length_cons, List.map_cons, List.sum_cons] at ih ⊢
    omega

namespace Widened

variable {as bs cs : Context}

theorem refl (as : Context) : Widened as as := by
  induction as with
  | nil => exact .nil []
  | cons a as ih => exact .cons (.same a) ih

theorem trans (hab : Widened as bs) (hbc : Widened bs cs) : Widened as cs := by
  induction hab generalizing cs with
  | nil => exact .nil cs
  | cons ha _ ih =>
    cases hbc with
    | cons hb hrest => exact .cons (ha.trans hb) (ih hrest)

theorem append (as bs : Context) : Widened as (as ++ bs) := by
  induction as with
  | nil => exact .nil bs
  | cons a as ih => exact .cons (.same a) ih

theorem set {i : ℕ} {a b : Option ColumnType} (hi : as[i]? = some a) (h : Raises a b) : Widened as (as.set i b) := by
  induction as generalizing i with
  | nil => exact .nil _
  | cons first as ih =>
    cases i with
    | zero =>
      cases hi
      exact .cons h (refl as)
    | succ i => exact .cons (.same first) (ih hi)

theorem eq_or_weight_lt (h : Widened as bs) : as = bs ∨ weight as < weight bs := by
  induction h with
  | nil context =>
    cases context with
    | nil => exact .inl rfl
    | cons b bs =>
      exact .inr (by simp only [weight, List.length_cons, List.length_nil, List.map_nil, List.sum_nil]; omega)
  | cons hab _ ih =>
    simp only [weight, List.length_cons, List.map_cons, List.sum_cons] at ih ⊢
    rcases hab.eq_or_rank_lt with rfl | hlt <;> rcases ih with rfl | hlt'
    · exact .inl rfl
    · exact .inr (by omega)
    · exact .inr (by omega)
    · exact .inr (by omega)

theorem weight_le (h : Widened as bs) : weight as ≤ weight bs := by
  rcases h.eq_or_weight_lt with rfl | hlt
  · exact le_rfl
  · exact hlt.le

end Widened

theorem zipUpdate_length {α β : Type} {f : α → β → DbResult α} {as as' : List α} {bs : List β}
    (h : zipUpdate f as bs = .ok as') : as'.length = as.length := by
  induction as generalizing bs as' with
  | nil =>
    cases h
    rfl
  | cons a as ih =>
    cases bs with
    | nil =>
      cases h
      rfl
    | cons b bs =>
      obtain ⟨first, -, htail⟩ := bind_eq_ok.mp h
      obtain ⟨rest, hrest, hall⟩ := bind_eq_ok.mp htail
      cases hall
      simp [ih hrest]

theorem zipUpdate_widened {as as' bs : Context} (h : zipUpdate commonType as bs = .ok as') : Widened as as' := by
  induction as generalizing bs as' with
  | nil => exact .nil _
  | cons a as ih =>
    cases bs with
    | nil =>
      cases h
      exact .refl _
    | cons b bs =>
      obtain ⟨first, hfirst, htail⟩ := bind_eq_ok.mp h
      obtain ⟨rest, hrest, hall⟩ := bind_eq_ok.mp htail
      cases hall
      exact .cons (commonType_raises hfirst) (ih hrest)

section Passes

variable {Node : Type} {hints : Context} {bound : ℕ}

/-- Types only move up, and the flag tells whether an output domain did. -/
structure Grows (s s' : Inference Node) : Prop where
  parameters : Widened s.parameters s'.parameters
  count : s'.parameters.length = s.parameters.length
  contexts : ∀ body, Widened (s.contexts body) (s'.contexts body)
  unchanged : s'.outputsChanged = false → s'.contexts = s.contexts ∧ s.outputsChanged = false
  changed : s'.outputsChanged = true → s.outputsChanged = true ∨ ∃ body, weight (s.contexts body) <
  weight (s'.contexts body)

theorem Grows.refl (s : Inference Node) : Grows s s :=
  ⟨.refl _, rfl, fun _ => .refl _, fun h => ⟨rfl, h⟩, .inl⟩

variable {s s' : Inference Node} {name : String} {body : Node} {expected : Context}

theorem Grows.trans {s'' : Inference Node} (h : Grows s s') (h' : Grows s' s'') : Grows s s'' where
  parameters := h.parameters.trans h'.parameters
  count := h'.count.trans h.count
  contexts body := (h.contexts body).trans (h'.contexts body)
  unchanged hflag := by
    obtain ⟨hsame', hflag'⟩ := h'.unchanged hflag
    obtain ⟨hsame, hfalse⟩ := h.unchanged hflag'
    exact ⟨hsame'.trans hsame, hfalse⟩
  changed hflag := by
    rcases h'.changed hflag with hflag' | ⟨body, hlt⟩
    · rcases h.changed hflag' with htrue | ⟨body, hlt⟩
      · exact .inl htrue
      · exact .inr ⟨body, hlt.trans_le (h'.contexts body).weight_le⟩
    · exact .inr ⟨body, (h.contexts body).weight_le.trans_lt hlt⟩

def Kept (hints : Context) (s : Inference Node) : Prop :=
  ∀ (i : ℕ) (kind : ColumnType), hints[i]? = some (some kind) → s.parameters[i]? = some (some kind)

theorem raiseParameter_raises {current kind : Option ColumnType} {expected : ColumnType}
    (h : raiseParameter name current expected = .ok kind) : Raises current kind := by
  cases current with
  | none =>
    cases h
    exact .known expected
  | some previous =>
    rw [raiseParameter] at h
    cases hcommon : commonType (some previous) (some expected) with
    | error error => simp [hcommon, Except.mapError] at h
    | ok common =>
      obtain rfl : common = kind := by simpa [hcommon, Except.mapError] using h
      exact commonType_raises hcommon

theorem parameter_spec {index : ℕ} {expected : Option ColumnType} {told : Ty × Inference Node}
    (h : s.parameter hints name index expected = .ok told) :
    Grows s told.2 ∧ (Kept hints s → Kept hints told.2) ∧ told.2.contexts = s.contexts := by
  rw [Inference.parameter] at h
  split at h
  · cases h
  · next current hcurrent =>
    split at h
    · cases h
      exact ⟨.refl s, id, rfl⟩
    · split at h
      · obtain ⟨_, -, htold⟩ := bind_eq_ok.mp h
        cases htold
        exact ⟨.refl s, id, rfl⟩
      · next hundeclared =>
        obtain ⟨kind, hkind, htold⟩ := bind_eq_ok.mp h
        cases htold
        refine ⟨⟨.set hcurrent (raiseParameter_raises hkind), List.length_set, fun _ => .refl _, fun h =>
          ⟨rfl, h⟩, .inl⟩, ?_, rfl⟩
        intro hkept i declared hi
        have hne : index ≠ i := by
          rintro rfl
          simp [hi] at hundeclared
        rw [List.getElem?_set_ne hne]
        exact hkept i declared hi

variable [DecidableEq Node]

theorem constrainOutputs_ok (h : s.constrainOutputs body expected = .ok s') :
    ∃ context, Widened (s.contexts body) context ∧ context.length = max (s.contexts body).length expected.length ∧
      s'.parameters = s.parameters ∧ s'.contexts = Function.update s.contexts body context ∧
      (s'.outputsChanged = true ↔ s.outputsChanged = true ∨ context ≠ s.contexts body) := by
  obtain ⟨context, hcontext, hs'⟩ := bind_eq_ok.mp h
  cases hs'
  have hlength := zipUpdate_length hcontext
  rw [List.length_append, List.length_replicate] at hlength
  refine ⟨context, (Widened.append _ _).trans (zipUpdate_widened hcontext), by omega, rfl, rfl, ?_⟩
  simp only [Bool.or_eq_true, decide_eq_true_eq, or_assoc]
  refine or_congr_right ?_
  rcases Nat.lt_or_ge (s.contexts body).length expected.length with hlt | hge
  · have hne : context ≠ s.contexts body := by
      rintro rfl
      omega
    simp [hlt, hne]
  · rw [Nat.sub_eq_zero_of_le hge, List.replicate_zero, List.append_nil]
    simp [hge.not_gt, ne_comm]

theorem constrainOutputs_grows (h : s.constrainOutputs body expected = .ok s') : Grows s s' := by
  obtain ⟨context, hwidened, -, hparameters, hcontexts, hflag⟩ := constrainOutputs_ok h
  refine ⟨hparameters ▸ .refl _, by rw [hparameters], fun node => ?_, fun hfalse => ?_, fun htrue => ?_⟩
  · rw [hcontexts]
    rcases eq_or_ne node body with rfl | hne
    · rwa [Function.update_self]
    · rw [Function.update_of_ne hne]
      exact .refl _
  · rw [← Bool.not_eq_true, hflag, not_or, not_not, Bool.not_eq_true] at hfalse
    exact ⟨by rw [hcontexts, hfalse.2, Function.update_eq_self], hfalse.1⟩
  · rcases hflag.mp htrue with hbefore | hne
    · exact .inl hbefore
    · refine .inr ⟨body, ?_⟩
      rw [hcontexts, Function.update_self]
      exact hwidened.eq_or_weight_lt.resolve_left (Ne.symm hne)

theorem constrainOutputs_within
    (h : s.constrainOutputs body expected = .ok s') (hs : ∀ node, (s.contexts node).length ≤ bound)
    (hexpected : expected.length ≤ bound) (node : Node) : (s'.contexts node).length ≤ bound := by
  obtain ⟨context, -, hlength, -, hcontexts, -⟩ := constrainOutputs_ok h
  rw [hcontexts]
  rcases eq_or_ne node body with rfl | hne
  · rw [Function.update_self, hlength]
    exact max_le (hs node) hexpected
  · rw [Function.update_of_ne hne]
    exact hs node

variable {α : Type} {prefer : Bool}

theorem run_grows {visit : Visit Node α} {a : α} (h : visit.run hints prefer s = .ok (a, s')) :
    Grows s s' ∧ (Kept hints s → Kept hints s') := by
  induction visit generalizing s with
  | done b =>
    cases h
    exact ⟨.refl _, id⟩
  | fail error => cases h
  | parameter name index expected next ih =>
    obtain ⟨told, htold, hrest⟩ := bind_eq_ok.mp h
    obtain ⟨hgrows, hkept, -⟩ := parameter_spec htold
    obtain ⟨hgrows', hkept'⟩ := ih told.1 hrest
    exact ⟨hgrows.trans hgrows', hkept' ∘ hkept⟩
  | constrain body expected next ih =>
    obtain ⟨middle, hmiddle, hrest⟩ := bind_eq_ok.mp h
    obtain ⟨_, -, -, hsame, -⟩ := constrainOutputs_ok hmiddle
    obtain ⟨hgrows, hkept⟩ := ih _ hrest
    exact ⟨(constrainOutputs_grows hmiddle).trans hgrows, fun h => hkept fun i kind hi => hsame ▸ h i kind hi⟩
  | prefer next ih => exact ih prefer h

theorem run_within {P : α → Prop} {visit : Visit Node α} (hvisit : visit.Within bound P) {s s' : Inference Node} {a : α}
    (hs : ∀ node, (s.contexts node).length ≤ bound) (h : visit.run hints prefer s = .ok (a, s')) :
    ∀ node, (s'.contexts node).length ≤ bound := by
  induction visit generalizing s with
  | done b =>
    cases h
    exact hs
  | fail error => cases h
  | parameter name index expected next ih =>
    obtain ⟨told, htold, hrest⟩ := bind_eq_ok.mp h
    exact ih told.1 (hvisit told.1) ((parameter_spec htold).2.2 ▸ hs) hrest
  | constrain body expected next ih =>
    obtain ⟨middle, hmiddle, hrest⟩ := bind_eq_ok.mp h
    have hmiddle' := constrainOutputs_within hmiddle hs hvisit.1
    exact ih _ (hvisit.2 _ (hmiddle' body)) hmiddle' hrest
  | prefer next ih => exact ih prefer (hvisit prefer) hs h

theorem length_combine {lhs rhs columns : List Column} {context : Context} (h : combine lhs rhs context = .ok columns) :
    columns.length = lhs.length := by
  rw [combine] at h
  split at h
  · cases h
  · obtain ⟨both, hboth, hcolumns⟩ := bind_eq_ok.mp h
    exact (zipUpdate_length hcolumns).trans (zipUpdate_length hboth)

omit [DecidableEq Node]

/-- The width of a SELECT: a column for each expression, and those of the scope for each wildcard. -/
theorem within_project {scope : List Column} {width : ℕ} (hscope : scope.length ≤ width) {items : List (Item Node)}
    (hitems : ∀ name type, .expr name type ∈ items → ∀ hint, (type hint).Within bound fun _ => True)
    (columns : List Column) : (project scope expected items columns).Within bound fun result =>
      result.length ≤ columns.length + (items.map (Item.width width)).sum := by
  induction items generalizing columns with
  | nil => exact le_rfl
  | cons item items ih =>
    have hrest := ih fun name type hmem => hitems name type (List.mem_cons_of_mem _ hmem)
    rw [List.map_cons, List.sum_cons]
    cases item with
    | expr name type =>
      refine (hitems name type (by simp) _).bind fun ty _ => (hrest _).mono fun result hresult => ?_
      rw [List.length_append, List.length_singleton] at hresult
      rwa [Item.width, ← add_assoc]
    | wildcard =>
      unfold project
      split
      · trivial
      · refine (hrest _).mono fun result hresult => hresult.trans ?_
        rw [List.length_append, Item.width]
        omega
    | unsupported => trivial

theorem within_select {s : Select Node bound} : (select s expected).Within bound fun columns =>
    columns.length ≤ bound := by
  refine s.scopeWithin.bind fun scope hscope => (within_project hscope s.itemsWithin []).bind fun columns hcolumns => ?_
  refine (Visit.within_ofResult fun _ _ => trivial).bind (P := fun _ => True) fun _ _ => ?_
  refine (s.havingWithin columns).bind fun _ _ => hcolumns.trans ?_
  rw [List.length_nil, zero_add]
  exact s.fits

theorem within_setExpr {body : SetExpr Node bound} (h : expected.length ≤ bound) :
    (setExpr body expected).Within bound fun columns => columns.length ≤ bound := by
  induction body generalizing expected with
  | select body s =>
    refine (Visit.within_constrainOutputs h).bind fun context hcontext => within_select.bind fun columns hcolumns => ?_
    exact (Visit.within_constrainOutputs (by simpa [kinds] using hcolumns)).bind fun _ _ => hcolumns
  | setOperation body op quantifier left right ihleft ihright =>
    refine (Visit.within_constrainOutputs h).bind fun context hcontext => ?_
    refine (Visit.within_ofResult fun _ _ => trivial).bind (P := fun _ => True) fun _ _ => ?_
    refine (ihleft hcontext).bind fun lhs hlhs => (ihright hcontext).bind fun rhs _ => ?_
    refine (Visit.within_ofResult (P := fun columns => columns.length ≤ bound) fun columns hcolumns =>
      (length_combine hcolumns).trans_le hlhs).bind fun columns hcolumns => ?_
    exact (Visit.within_constrainOutputs (by simpa [kinds] using hcolumns)).bind fun _ _ => hcolumns
  | other body => exact (Visit.within_constrainOutputs h).bind fun _ _ => trivial

theorem within_query {q : Query Node bound} (h : expected.length ≤ bound) :
    (query q expected).Within bound fun columns => columns.length ≤ bound := by
  refine (Visit.within_ofResult fun _ _ => trivial).bind (P := fun _ => True) fun _ _ => ?_
  refine (within_setExpr h).bind fun columns hcolumns => Visit.within_preferOutputs.bind fun prefer _ => ?_
  refine Visit.Within.bind (P := fun _ => True) ?_ fun _ _ => (q.within columns).bind fun _ _ => hcolumns
  unfold chooseOutputs
  split
  · exact ⟨by simpa [preferred] using hcolumns, fun _ _ => trivial⟩
  · trivial

theorem within_statement (source : Statement Node bound) : ∃ P, (statement source).Within bound P := by
  cases source with
  | query q => exact ⟨_, within_query (Nat.zero_le bound)⟩
  | other traverse within => exact ⟨_, within⟩

end Passes

section Fixpoint

variable {Node : Type} [DecidableEq Node] {hints : Context} {count bound : ℕ} {source : Statement Node bound}
    {p : Passes Node}

def Reaches (hints : Context) (count : ℕ) (source : Statement Node bound) (p : Passes Node) : Prop :=
  Relation.ReflTransGen (Turns (turn hints source)) (start hints count) p

theorem pass_spec {columns : List Column} {s : Inference Node} (h : pass hints source p = .ok (columns, s)) :
    Grows p.state.fresh s ∧ (Kept hints p.state → Kept hints s) ∧
      ((∀ node, (p.state.contexts node).length ≤ bound) → ∀ node, (s.contexts node).length ≤ bound) := by
  obtain ⟨P, hwithin⟩ := within_statement source
  obtain ⟨hgrows, hkept⟩ := run_grows h
  exact ⟨hgrows, hkept, fun hs => @run_within _ _ _ _ _ _ _ _ hwithin p.state.fresh _ _ hs h⟩

theorem turn_inl {p' : Passes Node} (h : turn hints source p = .inl p') :
    ∃ columns, pass hints source p = .ok (columns, p'.state) ∧
      (p'.state.parameters = p.state.parameters ∧ p'.state.outputsChanged = false ∧ p.preferOutputs = false ∧
          p'.preferOutputs = true ∨
        p'.preferOutputs = p.preferOutputs ∧
          (p'.state.parameters ≠ p.state.parameters ∨ p'.state.outputsChanged = true)) := by
  rw [turn] at h
  split at h
  · cases h
  · next columns s hpass =>
    split at h
    · next hsame =>
      cases h
      exact ⟨columns, hpass, .inl ⟨hsame.1, hsame.2.1, hsame.2.2, rfl⟩⟩
    · split at h
      · cases h
      · next hchanged =>
        cases h
        refine ⟨columns, hpass, .inr ⟨rfl, ?_⟩⟩
        rw [← Bool.not_eq_false]
        exact not_and_or.mp hchanged

theorem turn_inr {bound' : BoundStatement} (h : turn hints source p = .inr (.ok bound')) :
    ∃ columns s, pass hints source p = .ok (columns, s) ∧ s.parameters = p.state.parameters ∧ s.outputsChanged = false ∧
      p.preferOutputs = true ∧ bound'.parameterTypes = s.parameters := by
  rw [turn] at h
  split at h
  · cases h
  · next columns s hpass =>
    split at h
    · cases h
    · next hprefer =>
      split at h
      · next hsame =>
        cases h
        refine ⟨columns, s, hpass, hsame.1, hsame.2, ?_, rfl⟩
        rw [← Bool.not_eq_false]
        exact fun hfalse => hprefer ⟨hsame.1, hsame.2, hfalse⟩
      · cases h

/-- The states of a run: declared types kept, parameters counted, contexts within the bound. -/
def Wellformed (hints : Context) (count bound : ℕ) (p : Passes Node) : Prop :=
  Kept hints p.state ∧ p.state.parameters.length = max hints.length count ∧
  ∀ node, (p.state.contexts node).length ≤ bound

omit [DecidableEq Node] in
theorem wellformed_start : Wellformed hints count bound (start hints count : Passes Node) := by
  refine ⟨fun i kind hi => ?_, ?_, fun _ => Nat.zero_le bound⟩
  · exact (List.getElem?_append_left (List.getElem?_eq_some_iff.mp hi).1).trans hi
  · simp only [start, List.length_append, List.length_replicate]
    omega

theorem Wellformed.turn (hp : Wellformed hints count bound p) {p' : Passes Node} (h : turn hints source p = .inl p') :
    Wellformed hints count bound p' := by
  obtain ⟨columns, hpass, -⟩ := turn_inl h
  obtain ⟨hgrows, hkept, hwithin⟩ := pass_spec hpass
  exact ⟨hkept hp.1, hgrows.count.trans hp.2.1, hwithin hp.2.2⟩

theorem wellformed_of_reaches (h : Reaches hints count source p) : Wellformed hints count bound p := by
  induction h with
  | refl => exact wellformed_start
  | tail _ hturn ih => exact ih.turn hturn

variable [Fintype Node]

/-- How far the types have moved, with the turn to preferred outputs as a last step. -/
def progress (p : Passes Node) : ℕ :=
  weight p.state.parameters + ∑ node, weight (p.state.contexts node) + if p.preferOutputs then 1 else 0

omit [DecidableEq Node] in
theorem progress_le (hp : Wellformed hints count bound p) :
    progress p ≤ 5 * max hints.length count + Fintype.card Node * (5 * bound) + 1 := by
  have hparameters := weight_le p.state.parameters
  rw [hp.2.1] at hparameters
  have hcontexts : ∑ node, weight (p.state.contexts node) ≤ Fintype.card Node * (5 * bound) := by
    refine (Finset.sum_le_card_nsmul _ _ _ fun node _ => ?_).trans_eq (by rw [Finset.card_univ, smul_eq_mul])
    exact (weight_le _).trans (Nat.mul_le_mul_left 5 (hp.2.2 node))
  have hprefer : (if p.preferOutputs then 1 else 0) ≤ 1 := by split <;> decide
  unfold progress
  omega

theorem progress_lt {p' : Passes Node} (h : turn hints source p = .inl p') : progress p < progress p' := by
  obtain ⟨columns, hpass, hcases⟩ := turn_inl h
  have hgrows := (pass_spec hpass).1
  have hparameters : weight p.state.parameters ≤ weight p'.state.parameters := hgrows.parameters.weight_le
  have hcontexts : ∀ node ∈ Finset.univ, weight (p.state.contexts node) ≤ weight (p'.state.contexts node) :=
    fun node _ => (hgrows.contexts node).weight_le
  have hsum := Finset.sum_le_sum hcontexts
  unfold progress
  rcases hcases with ⟨-, -, hfalse, htrue⟩ | ⟨hprefer, hne | hflag⟩
  · rw [hfalse, htrue]
    simp only [Bool.false_eq_true, ↓reduceIte]
    omega
  · have hlt : weight p.state.parameters < weight p'.state.parameters :=
      hgrows.parameters.eq_or_weight_lt.resolve_left (Ne.symm hne)
    rw [hprefer]
    omega
  · obtain hbefore | ⟨node, hlt⟩ := hgrows.changed hflag
    · cases hbefore
    · have hlt' := Finset.sum_lt_sum hcontexts ⟨node, Finset.mem_univ node, hlt⟩
      rw [hprefer]
      omega

/-- The inference of a statement returns. In every pass of it each type stays, becomes known or is
promoted, and the declared parameters keep their types. When it binds the statement, a further pass
from where it ended changes nothing. -/
theorem bind_fixpoint (hints : Context) (count : ℕ) (source : Statement Node bound) :
    (∃ fuel result, bind hints count source fuel = some result) ∧
    (∀ p columns s, Reaches hints count source p → pass hints source p = .ok (columns, s) →
      Widened p.state.parameters s.parameters ∧ s.parameters.length = p.state.parameters.length ∧
      (∀ node, Widened (p.state.contexts node) (s.contexts node)) ∧
      ∀ (i : ℕ) (kind : ColumnType), hints[i]? = some (some kind) →
        p.state.parameters[i]? = some (some kind) ∧ s.parameters[i]? = some (some kind)) ∧
    ∀ fuel bound', bind hints count source fuel = some (.ok bound') →
      ∃ p columns s, Reaches hints count source p ∧ pass hints source p = .ok (columns, s) ∧
        bound'.parameterTypes = s.parameters ∧ pass hints source ⟨true, s⟩ = .ok (columns, s) := by
  refine ⟨?_, fun p columns s hp hpass => ?_, fun fuel bound' h => ?_⟩
  · unfold bind
    split
    · exact ⟨0, _, rfl⟩
    · exact exists_iterate (Wellformed hints count bound) progress _
        (fun _ _ hp hturn => ⟨hp.turn hturn, progress_lt hturn⟩) (fun _ hp => progress_le hp) wellformed_start
  · obtain ⟨hgrows, hkept, -⟩ := pass_spec hpass
    have hp' := (wellformed_of_reaches hp).1
    exact ⟨hgrows.parameters, hgrows.count, hgrows.contexts, fun i kind hi => ⟨hp' i kind hi, hkept hp' i kind hi⟩⟩
  · unfold bind at h
    split at h
    · cases h
    · obtain ⟨p, hreach, hlast⟩ := iterate_eq_some h
      obtain ⟨columns, s, hpass, hparameters, hflag, hprefer, htypes⟩ := turn_inr hlast
      have hcontexts : s.contexts = p.state.contexts := ((pass_spec hpass).1.unchanged hflag).1
      refine ⟨p, columns, s, hreach, hpass, htypes, ?_⟩
      -- the state after the last pass is the one before it
      have hsame : s.fresh = p.state.fresh := by
        rw [Inference.fresh, Inference.fresh, hparameters, hcontexts]
      rw [← hpass, pass, pass, hsame, hprefer]

local instance neZero_three : NeZero (3 : ℕ) := ⟨by decide⟩

/-- A SELECT of one expression without a FROM. -/
def selectOne (name : String) (type : Option ColumnType → Visit (Fin 3) Ty)
    (within : ∀ hint, (type hint).Within 1 fun _ => True) : Select (Fin 3) 1 where
  scope := .done []
  items := [.expr name type]
  having _ := .done ()
  scopeWidth := 0
  fits := le_rfl
  scopeWithin := le_rfl
  itemsWithin name' type' hmem hint := by
    cases List.mem_singleton.mp hmem
    exact within hint
  havingWithin _ := trivial

/-- The statement `SELECT $1 UNION SELECT 1`: the parameter learns its type from the other side. -/
def unionStatement : Statement (Fin 3) 1 :=
  .query
    { plain := true
      body := .setOperation 0 .union .none
        (.select 1 (selectOne "$1" (fun hint => .parameter "$1" 0 hint .done) fun _ _ => trivial))
        (.select 2 (selectOne "1" (fun _ => .done (Ty.known .i64)) fun _ => trivial))
      clauses := fun _ => .done ()
      within := fun _ => trivial }

theorem bind_fixpoint_union :
    bind [] 1 unionStatement 4 = some (.ok ⟨[some .i64], [⟨"$1", some .i64⟩]⟩) ∧
      ∃ columns s, s.parameters = [some .i64] ∧ pass [] unionStatement ⟨true, s⟩ = .ok (columns, s) := by
  have h : bind [] 1 unionStatement 4 = some (.ok ⟨[some .i64], [⟨"$1", some .i64⟩]⟩) := by decide +kernel
  obtain ⟨p, columns, s, -, -, htypes, hpass⟩ := (bind_fixpoint [] 1 unionStatement).2.2 4 _ h
  exact ⟨h, columns, s, htypes.symm, hpass⟩

end Fixpoint

end OmenDb.Sql.Binding
