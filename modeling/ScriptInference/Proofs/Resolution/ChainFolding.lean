import ScriptInference.Proofs.Resolution.Targets

/-!
# Access chains fold back into expressions

The spine of an expression leads through marks and accesses down to its innermost part. There is a
chain exactly if this part is a name or a value, and then every node of the spine other than a mark
gives one hop.

Folding the hops again gives the expression in a normal spelling. What the chain forgets are the
spans of the spine, the bounds of slices, whether a member was written with a string in brackets,
and how often a mark was repeated. It forgets nothing else: two expressions have the same chain only
if they are the same access up to these four.
-/

namespace ScriptInference

/-! ## Spines -/

namespace Expr

/-- What is left of an expression without its marks and accesses. -/
def innermost : Expr → Expr
  | .unary .reference a _ => a.innermost
  | .member b _ _ | .index b _ _ | .slice b _ _ _ | .call b _ _ => b.innermost
  | e => e

/-- The number of accesses on the spine and the innermost part. Marks do not count. -/
def spineLength : Expr → Nat
  | .unary .reference a _ => a.spineLength
  | .member b _ _ | .index b _ _ | .slice b _ _ _ | .call b _ _ => b.spineLength + 1
  | _ => 1

/-- A name, a literal, a map or a list. -/
def beginsChain (e : Expr) : Bool := e.identifier?.isSome || e.isValue

theorem hopsOnto_eq_none_iff (e : Expr) (reference : Bool) (acc : List Hop) :
    e.hopsOnto reference acc = none ↔ e.innermost.beginsChain = false := by
  fun_induction Expr.hopsOnto e reference acc with
  | case1 _ _ _ _ ih | case2 _ _ _ _ _ ih | case3 _ _ _ _ _ ih | case5 _ _ _ _ _ ih
  | case4 _ _ _ _ _ _ ih =>
    rw [innermost]
    exact ih
  | case6 => simp [innermost, beginsChain, identifier?]
  | case7 _ _ _ _ _ _ _ _ _ value =>
    rw [innermost]
    · simp [beginsChain, value]
    all_goals assumption
  | case8 e _ _ _ _ _ _ _ named plain =>
    have unnamed : e.identifier? = none := by
      cases e with
      | identifier n s => exact absurd rfl (named n s)
      | _ => rfl
    rw [innermost]
    · simp [beginsChain, unnamed, plain]
    all_goals assumption

theorem length_of_hopsOnto {e : Expr} {reference : Bool} {acc hops : List Hop}
    (h : e.hopsOnto reference acc = some hops) : hops.length = e.spineLength + acc.length := by
  fun_induction Expr.hopsOnto e reference acc with
  | case1 _ _ _ _ ih =>
    rw [spineLength]
    exact ih h
  | case2 _ _ _ _ _ ih | case3 _ _ _ _ _ ih | case4 _ _ _ _ _ _ ih | case5 _ _ _ _ _ ih =>
    rw [ih h, spineLength, List.length_cons]
    omega
  | case6 =>
    cases h
    rw [spineLength, List.length_cons, Nat.add_comm]
    all_goals simp
  | case7 =>
    cases h
    rw [spineLength, List.length_cons, Nat.add_comm]
    all_goals assumption
  | case8 => cases h

/-! ## The same access -/

/-- The same access in another spelling: the least equivalence that is kept by marks and accesses
and does not tell apart spans on the spine, bounds of slices, `b["s"]` from `b.s`, and a mark from
several. -/
inductive SameAccess : Expr → Expr → Prop
  | refl (e) : SameAccess e e
  | symm {a b} : SameAccess a b → SameAccess b a
  | trans {a b c} : SameAccess a b → SameAccess b c → SameAccess a c
  | key (b s p q r) : SameAccess (.index b (.string s p) q) (.member b s r)
  | marks (a p q r) :
      SameAccess (.unary .reference (.unary .reference a p) q) (.unary .reference a r)
  | identifier (n p q) : SameAccess (.identifier n p) (.identifier n q)
  | mark {a a'} (p q) : SameAccess a a' →
      SameAccess (.unary .reference a p) (.unary .reference a' q)
  | member {b b'} (n p q) : SameAccess b b' → SameAccess (.member b n p) (.member b' n q)
  | index {b b'} (i p q) : SameAccess b b' → SameAccess (.index b i p) (.index b' i q)
  | slice {b b'} (l l' r r' p q) : SameAccess b b' → SameAccess (.slice b l r p) (.slice b' l' r' q)
  | call {b b'} (as p q) : SameAccess b b' → SameAccess (.call b as p) (.call b' as q)

/-- The spelling of an access does not show in its hops. -/
theorem SameAccess.hopsOnto_eq {a b : Expr} (same : a.SameAccess b) (reference : Bool)
    (acc : List Hop) : a.hopsOnto reference acc = b.hopsOnto reference acc := by
  induction same generalizing reference acc with
  | refl => rfl
  | symm _ ih => exact (ih reference acc).symm
  | trans _ _ ih ih' => exact (ih reference acc).trans (ih' reference acc)
  | key | marks | identifier => rfl
  | mark _ _ _ ih | member _ _ _ _ ih | index _ _ _ _ ih | call _ _ _ _ ih
  | slice _ _ _ _ _ _ _ ih =>
    rw [hopsOnto, hopsOnto, ih]

end Expr

/-! ## Folding -/

namespace Access

/-- What a chain begins with. -/
def root? : Access → Option Expr
  | name n => some (.identifier n default)
  | value e => some e
  | _ => none

/-- One access more. -/
def after? (b : Expr) : Access → Option Expr
  | member n => some (.member b n default)
  | index i => some (.index b i default)
  | call as => some (.call b as default)
  | slice => some (.slice b none none default)
  | _ => none

/-- Indexing in its normal spelling, which for a string is a member. -/
theorem after?_indexAccess (b i : Expr) (p : Span) :
    ∃ f, i.indexAccess.after? b = some f ∧ f.SameAccess (.index b i p) := by
  cases i with
  | string v q => exact ⟨_, rfl, .symm (.key b v q p default)⟩
  | _ => exact ⟨_, rfl, .index _ default p (.refl b)⟩

end Access

namespace Expr

/-- The expression with or without a mark in front. -/
def marked (e : Expr) (reference : Bool) : Expr :=
  if reference then .unary .reference e default else e

/-- Further hops from an expression. -/
def extendBy : Expr → List Hop → Option Expr
  | e, [] => some e
  | e, hop :: rest => (hop.access.after? e).bind fun f => (f.marked hop.reference).extendBy rest

/-- The expression that the hops spell, with a mark where a hop has one and nowhere else. -/
def ofHops : List Hop → Option Expr
  | [] => none
  | hop :: rest => hop.access.root?.bind fun e => (e.marked hop.reference).extendBy rest

theorem SameAccess.marked {a b : Expr} (same : a.SameAccess b) (reference : Bool) :
    (a.marked reference).SameAccess (b.marked reference) := by
  cases reference with
  | false => exact same
  | true => exact .mark default default same

/-- A mark in front of a mark changes nothing. -/
theorem marked_mark (a : Expr) (reference : Bool) (p : Span) :
    (a.marked true).SameAccess (marked (.unary .reference a p) reference) := by
  cases reference with
  | false => exact .mark default p (.refl a)
  | true => exact .symm (.marks a p default default)

/-- One hop more, which spells `e`. -/
theorem exists_extendBy_cons {f e : Expr} (access : Access)
    (spelled : ∃ g, access.after? f = some g ∧ g.SameAccess e) (reference : Bool) (acc : List Hop) :
    ∃ g : Expr, g.SameAccess (e.marked reference) ∧
      f.extendBy (⟨access, reference⟩ :: acc) = g.extendBy acc := by
  obtain ⟨g, after, same⟩ := spelled
  refine ⟨g.marked reference, same.marked reference, ?_⟩
  rw [extendBy, after, Option.bind_some]

/-- The hops of an expression spell it, and then the hops that were collected before. The mark that
waits for its hop stands in front. -/
theorem ofHops_of_hopsOnto {e : Expr} {reference : Bool} {acc hops : List Hop}
    (h : e.hopsOnto reference acc = some hops) :
    ∃ f : Expr, f.SameAccess (e.marked reference) ∧ ofHops hops = f.extendBy acc := by
  fun_induction Expr.hopsOnto e reference acc with
  | case1 a p reference acc ih =>
    obtain ⟨f, same, spelled⟩ := ih h
    exact ⟨f, same.trans (a.marked_mark reference p), spelled⟩
  | case2 b n p reference acc ih =>
    obtain ⟨f, same, spelled⟩ := ih h
    rw [spelled]
    exact exists_extendBy_cons (.member n) ⟨_, rfl, .member n default p same⟩ reference acc
  | case3 b i p reference acc ih =>
    obtain ⟨f, same, spelled⟩ := ih h
    obtain ⟨g, after, normal⟩ := Access.after?_indexAccess f i p
    rw [spelled]
    exact exists_extendBy_cons i.indexAccess ⟨g, after, normal.trans (.index i p p same)⟩
      reference acc
  | case4 b l r p reference acc ih =>
    obtain ⟨f, same, spelled⟩ := ih h
    rw [spelled]
    exact exists_extendBy_cons .slice ⟨_, rfl, .slice none l none r default p same⟩ reference acc
  | case5 b as p reference acc ih =>
    obtain ⟨f, same, spelled⟩ := ih h
    rw [spelled]
    exact exists_extendBy_cons (.call as) ⟨_, rfl, .call as default p same⟩ reference acc
  | case6 n p reference acc =>
    cases h
    exact ⟨_, SameAccess.marked (.identifier n default p) reference, rfl⟩
  | case7 e reference acc =>
    cases h
    exact ⟨_, .refl _, rfl⟩
  | case8 => cases h

/-- Two access expressions have the same chain only if they are the same access. -/
theorem sameAccess_of_accessChain_eq {a b : Expr} {hops : List Hop} (ha : a.accessChain = some hops)
    (hb : b.accessChain = some hops) : a.SameAccess b := by
  obtain ⟨f, fa, spelled⟩ := ofHops_of_hopsOnto ha
  obtain ⟨g, gb, spelled'⟩ := ofHops_of_hopsOnto hb
  obtain rfl : f = g := Option.some.inj (spelled.symm.trans spelled')
  exact fa.symm.trans gb

/-- There is no chain exactly if the innermost part is neither a name nor a value. Otherwise the
chain begins with a name or a value, goes on with members, indexes, calls and slices, and has one
hop for each node of the spine that is not a mark. Its hops spell the expression in a normal way,
and another expression has the same chain exactly if it is the same access. -/
theorem accessChain_folds_back (e : Expr) :
    (e.accessChain = none ↔ e.innermost.beginsChain = false) ∧
    (e.innermost.beginsChain = true → ∃ root steps f,
      e.accessChain = some (root :: steps) ∧ root.access.isRoot = true ∧
      (∀ hop ∈ steps, hop.access.isRoot = false) ∧ (root :: steps).length = e.spineLength ∧
      ofHops (root :: steps) = some f ∧ f.SameAccess e ∧
      ∀ other : Expr, other.accessChain = some (root :: steps) ↔ other.SameAccess e) := by
  have absent := hopsOnto_eq_none_iff e false []
  refine ⟨absent, fun begins => ?_⟩
  cases chain : e.accessChain with
  | none =>
    rw [absent.1 chain] at begins
    cases begins
  | some hops =>
    obtain ⟨root, steps, rfl, first, later⟩ := hopsOnto_eq_some (by simp) chain
    obtain ⟨f, same, spelled⟩ := ofHops_of_hopsOnto chain
    refine ⟨root, steps, f, rfl, first, later, length_of_hopsOnto chain, spelled, same,
      fun other => ?_⟩
    constructor
    · exact fun there => sameAccess_of_accessChain_eq there chain
    · exact fun same => (same.hopsOnto_eq false []).trans chain

/-- The expression `@@a["k"][i:](@b)`. -/
def markedCall : Expr :=
  .unary .reference (.unary .reference (.call
    (.slice (.index (.identifier "a" default) (.string "k" default) default)
      (some (.identifier "i" default)) none default)
    [.unary .reference (.identifier "b" default) default] default) default) default

theorem accessChain_folds_back_marked :
    markedCall.innermost.beginsChain = true ∧ markedCall.accessChain ≠ none ∧
    ∃ f, ofHops [⟨.name "a", false⟩, ⟨.member "k", false⟩, ⟨.slice, false⟩,
        ⟨.call [.unary .reference (.identifier "b" default) default], true⟩] = some f ∧
      f.SameAccess markedCall := by
  obtain ⟨absent, present⟩ := accessChain_folds_back markedCall
  obtain ⟨root, steps, f, chain, -, -, -, spelled, same, -⟩ := present rfl
  refine ⟨rfl, fun none => ?_, f, ?_, same⟩
  · cases absent.1 none
  · cases chain
    exact spelled

end Expr

end ScriptInference
