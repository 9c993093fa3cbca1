import Mathlib.Data.List.Forall2
import Mathlib.Data.Option.Basic
import ScriptInference.Catalog.Reader
import ScriptInference.Proofs.Collection.Views

/-!
# Loading catalogs up to the first fault

A text is taken in type by type and member by member, both in the order of their names, and of
repeated names the last one counts. A member is complete if it has a type and, being callable, a
label for every argument. Here the loop over the arguments, the one over the members and the one
over the types each get one statement of the same form: either everything is complete and has been
taken in, or the loop has stopped at its first fault and what stands before it is complete. Put
together they say which error is reported and which types a catalog has received by then.
-/

namespace ScriptInference

variable {α : Type} {typeName : String} {d : Definition} {e : CatalogError} {raw : RawSignature}
  {j : Json}

/-! ## The last of repeated keys, and what stands before a key -/

/-- The value of the last pair with the given key. -/
def lastUnder {κ υ : Type} [DecidableEq κ] (k : κ) : List (κ × υ) → Option υ
  | [] => none
  | e :: rest => (lastUnder k rest).or (if e.1 = k then some e.2 else none)

namespace SortedMap
variable {κ υ : Type} [LT κ] [DecidableEq κ] [DecidableLT κ] [StrictOrder κ]

theorem get?_foldl_insert (l : List (κ × υ)) (m : SortedMap κ υ) (k : κ) :
    (l.foldl (fun m e => m.insert e.1 e.2) m).get? k = (lastUnder k l).or (m.get? k) := by
  induction l generalizing m with
  | nil => rfl
  | cons e rest ih =>
    rw [List.foldl_cons, ih, get?_insert, lastUnder, Option.or_assoc]
    by_cases same : e.1 = k
    · simp [same]
    · simp [same, Ne.symm same]

theorem get?_ofList (l : List (κ × υ)) (k : κ) : (ofList l).get? k = lastUnder k l := by
  rw [ofList, get?_foldl_insert]
  exact Option.or_none

omit [DecidableEq κ] in
theorem filter_of_split {m : SortedMap κ υ} {front back : List (κ × υ)} {e : κ × υ}
    (split : m.toList = front ++ e :: back) : m.toList.filter (fun x => x.1 < e.1) = front := by
  have sorted := m.sorted
  rw [← toList, split, List.pairwise_append, List.pairwise_cons] at sorted
  obtain ⟨_, ⟨after, _⟩, before⟩ := sorted
  have kept : front.filter (fun x => x.1 < e.1) = front := by
    rw [List.filter_eq_self]
    intro x hx
    simpa using before x hx e List.mem_cons_self
  have dropped : back.filter (fun x => x.1 < e.1) = [] := by
    rw [List.filter_eq_nil_iff]
    intro x hx smaller
    exact StrictOrder.irrefl _ (StrictOrder.trans (after x hx) (of_decide_eq_true smaller))
  rw [split, List.filter_append, List.filter_cons_of_neg (by simp [StrictOrder.irrefl]), kept,
    dropped, List.append_nil]

theorem forall_smaller_of_split {m : SortedMap κ υ} {front back : List (κ × υ)} {k : κ} {v : υ}
    (split : m.toList = front ++ (k, v) :: back) {P : υ → Prop} (before : ∀ x ∈ front, P x.2)
    (j : κ) (w : υ) (smaller : j < k) (stored : m.get? j = some w) : P w := by
  refine before (j, w) ?_
  rw [← filter_of_split split]
  exact List.mem_filter.2 ⟨get?_eq_some_iff.1 stored, by simpa using smaller⟩

end SortedMap

theorem not_mem_names_of_lt {υ : Type} {l : List (String × υ)} {name : String}
    (after : ∀ x ∈ l, name < x.1) : name ∉ l.map (·.1) := by
  intro again
  obtain ⟨x, hx, same⟩ := List.mem_map.1 again
  exact StrictOrder.irrefl name (same ▸ after x hx)

/-! ## Arguments -/

namespace RawArgument

/-- An argument of a text as it is loaded. -/
structure Loads (raw : RawArgument) (a : Argument) : Prop where
  label : raw.label = some a.label
  types : a.types = if raw.types = [] then [Tag.any] else raw.types
  optional : a.optional = raw.optional

theorem types_ne_nil_of_loads {l : List RawArgument} {loaded : List Argument}
    (all : List.Forall₂ Loads l loaded) : ∀ a ∈ loaded, a.types ≠ [] := by
  induction all with
  | nil => simp
  | cons first _ others =>
    refine List.forall_mem_cons.2 ⟨?_, others⟩
    rw [first.types]
    split
    · simp
    · assumption

theorem checkAll_cases (typeName member : String) (position : Nat) (l : List RawArgument) :
    (∃ loaded, checkAll typeName member position l = .ok loaded ∧ (∀ a ∈ l, a.label.isSome) ∧
        List.Forall₂ Loads l loaded) ∨
      ∃ front a back, l = front ++ a :: back ∧ (∀ b ∈ front, b.label.isSome) ∧ a.label = none ∧
        checkAll typeName member position l =
          .error (.missingArgumentLabel typeName member (position + front.length)) := by
  induction l generalizing position with
  | nil => exact .inl ⟨[], rfl, by simp, .nil⟩
  | cons a rest ih =>
    cases labelled : a.label with
    | none =>
      refine .inr ⟨[], a, rest, rfl, by simp, labelled, ?_⟩
      simp [checkAll, check, labelled, bind, Except.bind]
    | some label =>
      obtain ⟨loaded, checked, others, all⟩ | ⟨front, b, back, rfl, before, missing, checked⟩ :=
        ih (position + 1)
      · let first : Argument := ⟨label, if a.types = [] then [Tag.any] else a.types, a.optional⟩
        refine .inl ⟨first :: loaded, ?_, ?_, .cons ⟨labelled, rfl, rfl⟩ all⟩
        · simp [checkAll, check, labelled, checked, first, bind, Except.bind, pure, Except.pure]
        · simpa [labelled] using others
      · refine .inr ⟨a :: front, b, back, rfl, ?_, missing, ?_⟩
        · simpa [labelled] using before
        · simp [checkAll, check, labelled, checked, bind, Except.bind, Nat.add_assoc,
            Nat.add_comm 1]

end RawArgument

/-! ## Members -/

namespace RawDefinition

structure Complete (d : RawDefinition) : Prop where
  typed : d.type ≠ none ∧ d.type ≠ some ""
  labelled : d.type = some Tag.function → ∀ a ∈ d.arguments, a.label.isSome

/-- The fault that is reported for a member. A missing type comes before a missing label, and of the
arguments without a label the first one is named. -/
inductive Faults (typeName member : String) (d : RawDefinition) : CatalogError → Prop where
  | untyped (missing : d.type = none ∨ d.type = some "") :
      Faults typeName member d (.missingType typeName member)
  | unlabelled {front back : List RawArgument} {a : RawArgument}
      (function : d.type = some Tag.function)
      (split : d.arguments = front ++ a :: back) (before : ∀ b ∈ front, b.label.isSome)
        (missing : a.label = none) :
      Faults typeName member d (.missingArgumentLabel typeName member front.length)

/-- A member of a text as it is loaded. -/
structure Loads (raw : RawDefinition) (d : Definition) : Prop where
  type : raw.type = some d.type
  description : d.description = raw.description
  function : d.type = Tag.function → List.Forall₂ RawArgument.Loads raw.arguments d.arguments ∧
    d.returns = if raw.returns = [] then [Tag.any] else raw.returns
  value : d.type ≠ Tag.function → d.arguments = [] ∧ d.returns = []

theorem Faults.not_complete {member : String} {d : RawDefinition}
    (faults : d.Faults typeName member e) : ¬ d.Complete := by
  intro complete
  cases faults with
  | untyped missing => exact missing.elim complete.typed.1 complete.typed.2
  | unlabelled function split before missing =>
    have labelled := complete.labelled function _ (by rw [split]; exact List.mem_append_cons_self)
    simp [missing] at labelled

@[simp] theorem type_describe (d : Definition) (text : Option String) :
    (describe d text).type = d.type := by
  cases text <;> rfl

@[simp] theorem arguments_describe (d : Definition) (text : Option String) :
    (describe d text).arguments = d.arguments := by
  cases text <;> rfl

@[simp] theorem returns_describe (d : Definition) (text : Option String) :
    (describe d text).returns = d.returns := by
  cases text <;> rfl

theorem description_describe (plain : d.description = none) (text : Option String) :
    (describe d text).description = text := by
  cases text with
  | none => exact plain
  | some text => rfl

theorem check_cases (typeName member : String) (d : RawDefinition) :
    (∃ loaded, d.check typeName member = .ok loaded ∧ d.Complete ∧ d.Loads loaded) ∨
      ∃ e, d.check typeName member = .error e ∧ d.Faults typeName member e := by
  cases typed : d.type with
  | none => exact .inr ⟨_, by simp [check, typed], .untyped (.inl typed)⟩
  | some type =>
    by_cases blank : type = ""
    · subst blank
      exact .inr ⟨_, by simp [check, typed], .untyped (.inr typed)⟩
    have named : type.isEmpty = false := by simpa using blank
    by_cases function : type = Tag.function
    · subst function
      obtain ⟨loaded, checked, labelled, all⟩ | ⟨front, a, back, split, before, missing, checked⟩ :=
        RawArgument.checkAll_cases typeName member 0 d.arguments
      · refine .inl ⟨describe (.function loaded d.returns) d.description, ?_, ⟨?_, ?_⟩, ?_⟩
        · simp [check, typed, named, checked, bind, Except.bind, pure, Except.pure]
        · simp [typed, Tag.function]
        · exact fun _ => labelled
        · exact {
            type := by simp [typed, Definition.function]
            description := description_describe rfl _
            function := fun _ => by simp [Definition.function, all]
            value := fun other => absurd (by simp [Definition.function]) other }
      · rw [Nat.zero_add] at checked
        refine .inr ⟨_, ?_, .unlabelled typed split before missing⟩
        simp [check, typed, named, checked, bind, Except.bind]
    · refine .inl ⟨describe (.value type) d.description, ?_, ⟨?_, ?_⟩, ?_⟩
      · simp [check, typed, named, function]
      · simp [typed, blank]
      · simp [typed, function]
      · exact {
          type := by simp [typed, Definition.value]
          description := description_describe rfl _
          function := fun same => absurd (by simpa [Definition.value] using same) function
          value := fun _ => by simp [Definition.value] }

end RawDefinition

/-! ## Types -/

namespace RawSignature

def Complete (raw : RawSignature) : Prop :=
  ∀ member d, raw.definitions.get? member = some d → d.Complete

/-- The fault that is reported for a type is the one of its least faulty member. -/
def Faults (typeName : String) (raw : RawSignature) (e : CatalogError) : Prop :=
  ∃ member d, raw.definitions.get? member = some d ∧ d.Faults typeName member e ∧
    ∀ other d', other < member → raw.definitions.get? other = some d' → d'.Complete

/-- A type of a text as it is loaded, with a definition for each of its members and for no other
name. -/
structure Loads (typeName : String) (raw : RawSignature) (s : Signature) : Prop where
  typeName : s.typeName = typeName
  indexes : s.indexes = raw.indexes
  definitions : ∀ member,
    Option.Rel RawDefinition.Loads (raw.definitions.get? member) (s.definitions.get? member)

theorem Faults.not_complete (faults : raw.Faults typeName e) : ¬ raw.Complete := by
  obtain ⟨member, d, stored, fault, _⟩ := faults
  exact fun complete => fault.not_complete (complete member d stored)

/-- The signature `s'` is `s` with the members of a list put under their names. -/
structure Receives (s : Signature) (taken : List (String × RawDefinition)) (s' : Signature) :
    Prop where
  typeName : s'.typeName = s.typeName
  indexes : s'.indexes = s.indexes
  loaded : ∀ x ∈ taken, ∃ d, s'.definitions.get? x.1 = some d ∧ x.2.Loads d
  kept : ∀ member, member ∉ taken.map (·.1) → s'.definitions.get? member = s.definitions.get? member

theorem Receives.cons {s s' : Signature} {member : String} {raw : RawDefinition} {d : Definition}
    {taken : List (String × RawDefinition)}
      (received : Receives (s.withDefinition member d) taken s')
    (loads : raw.Loads d) (after : ∀ x ∈ taken, member < x.1) :
      Receives s ((member, raw) :: taken) s' where
  typeName := received.typeName
  indexes := received.indexes
  loaded := by
    refine List.forall_mem_cons.2 ⟨⟨d, ?_, loads⟩, received.loaded⟩
    rw [received.kept member (not_mem_names_of_lt after)]
    simp [Signature.withDefinition]
  kept := by
    intro other absent
    rw [List.map_cons, List.mem_cons, not_or] at absent
    rw [received.kept other absent.2]
    simp [Signature.withDefinition, absent.1]

theorem checkMembers_cases (typeName : String) (l : List (String × RawDefinition)) (s : Signature)
    (sorted : l.Pairwise fun a b => a.1 < b.1) :
    (∃ s', checkMembers typeName l s = .ok s' ∧ (∀ x ∈ l, x.2.Complete) ∧ Receives s l s') ∨
      ∃ front member d back e, l = front ++ (member, d) :: back ∧ (∀ x ∈ front, x.2.Complete) ∧
        d.Faults typeName member e ∧ checkMembers typeName l s = .error e := by
  induction l generalizing s with
  | nil => exact .inl ⟨s, rfl, by simp, rfl, rfl, by simp, fun _ _ => rfl⟩
  | cons x rest ih =>
    obtain ⟨member, d⟩ := x
    obtain ⟨after, tail⟩ := List.pairwise_cons.1 sorted
    obtain ⟨loaded, checked, complete, loads⟩ | ⟨e, checked, fault⟩ := d.check_cases typeName member
    · have step : checkMembers typeName ((member, d) :: rest) s =
          checkMembers typeName rest (s.withDefinition member loaded) := by
        simp [checkMembers, checked, bind, Except.bind]
      rw [step]
      obtain ⟨s', run, all, received⟩ | ⟨front, other, d', back, e, rfl, before, fault, run⟩ :=
        ih (s.withDefinition member loaded) tail
      · refine .inl ⟨s', run, ?_, received.cons loads after⟩
        simpa [complete] using fun a b => all (a, b)
      · refine .inr ⟨(member, d) :: front, other, d', back, e, rfl, ?_, fault, run⟩
        simpa [complete] using fun a b => before (a, b)
    · refine .inr ⟨[], member, d, rest, e, rfl, by simp, fault, ?_⟩
      simp [checkMembers, checked, bind, Except.bind]

theorem check_cases (typeName : String) (raw : RawSignature) :
    (∃ s, raw.check typeName = .ok s ∧ raw.Complete ∧ raw.Loads typeName s) ∨
      ∃ e, raw.check typeName = .error e ∧ raw.Faults typeName e := by
  obtain ⟨s, run, all, received⟩ | ⟨front, member, d, back, e, split, before, fault, run⟩ :=
    checkMembers_cases typeName raw.definitions.toList { typeName, indexes := raw.indexes }
      raw.definitions.sorted
  · refine .inl ⟨s, run,
        fun member d stored => all _ (SortedMap.get?_eq_some_iff.1 stored), received.typeName,
      received.indexes, fun member => ?_⟩
    cases stored : raw.definitions.get? member with
    | some d =>
      obtain ⟨loaded, found, loads⟩ := received.loaded _ (SortedMap.get?_eq_some_iff.1 stored)
      rw [found]
      exact .some loads
    | none =>
      have absent : member ∉ raw.definitions.toList.map (·.1) := by
        intro here
        obtain ⟨⟨_, d⟩, hx, rfl⟩ := List.mem_map.1 here
        simp [SortedMap.get?_eq_some_iff.2 hx] at stored
      rw [received.kept member absent]
      exact .none
  · have stored : raw.definitions.get? member =
        some d := SortedMap.get?_eq_some_iff.2 (by simp [split])
    exact .inr ⟨e, run, member, d, stored, fault, SortedMap.forall_smaller_of_split split before⟩

end RawSignature

/-! ## Catalogs -/

/-- A callable definition always says what it takes and what it returns, any other one never
does. -/
def Definition.Filled (d : Definition) : Prop :=
  if d.type = Tag.function then d.returns ≠ [] ∧ ∀ a ∈ d.arguments, a.types ≠ []
  else d.arguments = [] ∧ d.returns = []

theorem RawDefinition.Loads.filled {raw : RawDefinition} (loads : raw.Loads d) : d.Filled := by
  unfold Definition.Filled
  split
  case isTrue function =>
    obtain ⟨arguments, returns⟩ := loads.function function
    refine ⟨?_, RawArgument.types_ne_nil_of_loads arguments⟩
    rw [returns]
    split
    · simp
    · assumption
  case isFalse value => exact loads.value value

namespace Catalog

/-- The table in which a catalog keeps the primitive types, or the one with all others. -/
def table (c : Catalog) (primitive : Bool) : SortedMap String Signature :=
  if primitive then c.primitives else c.types

/-- The catalog `c'` is `c` with the types of a list put under their names. -/
structure Receives (c : Catalog) (taken : List (String × RawSignature)) (c' : Catalog) : Prop where
  loaded : ∀ x ∈ taken, ∃ s, (c'.table (Tag.isPrimitive x.1)).get? x.1 = some s ∧ x.2.Loads x.1 s ∧
    ∀ member d, s.definitions.get? member = some d → d.Filled
  kept : ∀ name primitive, (primitive = Tag.isPrimitive name → name ∉ taken.map (·.1)) →
    (c'.table primitive).get? name = (c.table primitive).get? name

theorem get?_table_insert (c : Catalog) (s : Signature) (primitive : Bool) (name : String) :
    ((c.insert s).table primitive).get? name =
      if name = s.typeName ∧
        primitive = Tag.isPrimitive name then some s else (c.table primitive).get? name := by
  unfold insert table
  by_cases same : name = s.typeName
  · subst same
    cases Tag.isPrimitive s.typeName <;> cases primitive <;> simp
  · cases Tag.isPrimitive s.typeName <;> cases primitive <;> simp [same]

theorem Receives.cons {c c' : Catalog} {name : String} {raw : RawSignature} {s : Signature}
    {taken : List (String × RawSignature)} (received : (c.insert s).Receives taken c')
      (loads : raw.Loads name s)
    (after : ∀ x ∈ taken, name < x.1) : c.Receives ((name, raw) :: taken) c' where
  loaded := by
    refine List.forall_mem_cons.2 ⟨⟨s, ?_, loads, fun member d stored => ?_⟩, received.loaded⟩
    · rw [received.kept name _ fun _ => not_mem_names_of_lt after, get?_table_insert]
      simp [loads.typeName]
    · have rel := loads.definitions member
      rw [stored] at rel
      generalize raw.definitions.get? member = given at rel
      cases rel with
      | some loaded => exact loaded.filled
  kept := by
    intro other primitive absent
    have elsewhere : ¬ (other = s.typeName ∧ primitive = Tag.isPrimitive other) := by
      rintro ⟨same, table⟩
      exact absent table (by simp [same, loads.typeName])
    rw [received.kept other primitive fun table => List.not_mem_of_not_mem_cons (absent table),
      get?_table_insert, if_neg elsewhere]

theorem insertChecked_cases (l : List (String × RawSignature)) (c : Catalog)
    (sorted : l.Pairwise fun a b => a.1 < b.1) :
    (∃ c', c.insertChecked l = (c', .ok ()) ∧ (∀ x ∈ l, x.2.Complete) ∧ c.Receives l c') ∨
      ∃ front name raw back e c', l = front ++ (name, raw) :: back ∧ (∀ x ∈ front, x.2.Complete) ∧
        raw.Faults name e ∧ c.insertChecked l = (c', .error e) ∧ c.Receives front c' := by
  induction l generalizing c with
  | nil => exact .inl ⟨c, rfl, by simp, by simp, fun _ _ _ => rfl⟩
  | cons x rest ih =>
    obtain ⟨name, raw⟩ := x
    obtain ⟨after, tail⟩ := List.pairwise_cons.1 sorted
    obtain ⟨s, checked, complete, loads⟩ | ⟨e, checked, fault⟩ := raw.check_cases name
    · have step : c.insertChecked ((name, raw) :: rest) = (c.insert s).insertChecked rest := by
        simp [insertChecked, checked]
      rw [step]
      obtain ⟨c', run, all, received⟩ | ⟨front, other, raw', back, e, c', rfl, before, fault, run,
          received⟩ :=
        ih (c.insert s) tail
      · refine .inl ⟨c', run, ?_, received.cons loads after⟩
        simpa [complete] using fun a b => all (a, b)
      · refine .inr ⟨(name, raw) :: front, other, raw', back, e, c', rfl, ?_, fault, run,
          received.cons loads fun x hx => after x (List.mem_append_left _ hx)⟩
        simpa [complete] using fun a b => before (a, b)
    · exact .inr ⟨[], name, raw, rest, e, c,
        rfl, by simp, fault, by simp [insertChecked, checked], by simp, fun _ _ _ => rfl⟩

end Catalog

/-! ## Texts -/

namespace Json

/-- The value of the last field of an object with the given key. -/
def lastField? (key : String) : Json → Option Json
  | .obj fields => lastUnder (some key) fields
  | _ => none

theorem rel_lastUnder {decode : Json → Option α} {fields : List (Option String × Json)}
    {pairs : List (String × α)}
    (read : (fields.mapM fun f => do let key ← f.1 let value ← decode f.2 return (key, value)) =
      some pairs)
    (key : String) :
    Option.Rel (fun j a => decode j = some a) (lastUnder (some key) fields)
      (lastUnder key pairs) := by
  induction fields generalizing pairs with
  | nil =>
    obtain rfl : [] = pairs := by simpa using read
    exact .none
  | cons f rest ih =>
    simp only [List.mapM_cons, Option.bind_eq_bind, Option.bind_eq_some_iff, Option.pure_def,
      Option.some.injEq] at read
    obtain ⟨_, ⟨name, named, value, decoded, rfl⟩, others, all, rfl⟩ := read
    have tail := ih all
    simp only [lastUnder, named, Option.some.injEq]
    generalize lastUnder (some key) rest = last at tail
    generalize lastUnder key others = loaded at tail
    cases tail with
    | some later => exact .some later
    | none =>
      split
      · exact .some decoded
      · exact .none

theorem isSome_asPairs?_obj {decode : Json → Option α} {fields : List (Option String × Json)} :
    (asPairs? decode (.obj fields)).isSome ↔ ∀ f ∈ fields, f.1.isSome ∧ (decode f.2).isSome := by
  simp only [asPairs?]
  induction fields with
  | nil => simp
  | cons f rest ih =>
    rw [List.forall_mem_cons, ← ih, List.mapM_cons]
    cases f.1 <;> cases decode f.2 <;> simp [Option.isSome_bind]

theorem rel_get?_asPairs? {decode : Json → Option α} {pairs : List (String × α)}
    (read : j.asPairs? decode = some pairs) (key : String) :
    Option.Rel (fun j a => decode j = some a) (j.lastField? key)
      ((SortedMap.ofList pairs).get? key) := by
  rw [SortedMap.get?_ofList]
  cases j with
  | obj fields => exact rel_lastUnder read key
  | _ => cases read

end Json

/-- The members and the element types of a type as they are read: of a repeated name the last
one. -/
def RawSignature.ReadFrom (j : Json) (raw : RawSignature) : Prop :=
  ∃ r, j.asRecord? ["definitions", "indexes"] = some r ∧
    (∀ member, Option.Rel (fun j d => RawDefinition.ofJson? j = some d)
      ((r.get? "definitions").bind (Json.lastField? member)) (raw.definitions.get? member)) ∧
    ∀ keyType, Option.Rel (fun j types => j.asStrings? = some types)
      ((r.get? "indexes").bind (Json.lastField? keyType)) (raw.indexes.get? keyType)

theorem Json.Record.rel_withDefault {decode : Json → Option α} {r : Record} {field : String}
    {pairs : List (String × α)} (read : r.withDefault field [] (asPairs? decode) = some pairs)
    (key : String) :
    Option.Rel (fun j a => decode j = some a) ((r.get? field).bind (lastField? key))
      ((SortedMap.ofList pairs).get? key) := by
  unfold withDefault at read
  cases given : r.get? field with
  | none =>
    obtain rfl : [] = pairs := by simpa [given] using read
    exact .none
  | some j => exact rel_get?_asPairs? (by simpa [given] using read) key

theorem RawSignature.readFrom_of_ofJson? (read : ofJson? j = some raw) : raw.ReadFrom j := by
  simp only [ofJson?, Option.bind_eq_bind, Option.bind_eq_some_iff, Option.pure_def,
    Option.some.injEq] at read
  obtain ⟨r, record, definitions, readDefinitions, indexes, readIndexes, rfl⟩ := read
  exact ⟨r, record, Json.Record.rel_withDefault readDefinitions,
    Json.Record.rel_withDefault readIndexes⟩

namespace Catalog

theorem extend_cases {c : Catalog} {text : String} {raw : RawCatalog}
    (read : readText? text = some raw) :
    ((c.extend text).2 = .ok () ∧ (∀ name sig, raw.get? name = some sig → sig.Complete) ∧
        c.Receives raw.toList (c.extend text).1) ∨
      ∃ name sig e, raw.get? name = some sig ∧ sig.Faults name e ∧ (c.extend text).2 = .error e ∧
        (∀ other sig', other < name → raw.get? other = some sig' → sig'.Complete) ∧
        c.Receives (raw.toList.filter fun x => x.1 < name) (c.extend text).1 := by
  have run : c.extend text = c.insertChecked raw.toList := by simp [extend, read]
  rw [run]
  obtain ⟨c', run, all, received⟩ | ⟨front, name, sig, back, e, c', split, before, fault, run,
      received⟩ :=
    insertChecked_cases raw.toList c raw.sorted
  · rw [run]
    exact .inl ⟨rfl, fun name sig stored => all _ (SortedMap.get?_eq_some_iff.1 stored), received⟩
  · rw [run]
    have stored : raw.get? name = some sig := SortedMap.get?_eq_some_iff.2 (by simp [split])
    refine .inr ⟨name, sig, e, stored, fault, rfl,
      SortedMap.forall_smaller_of_split split before, ?_⟩
    rw [SortedMap.filter_of_split split]
    exact received

/-- The text is a JSON object that has a type under every key. -/
def IsText (text : String) : Prop :=
  ∃ fields, Json.parse? text = some (.obj fields) ∧
    ∀ f ∈ fields, f.1.isSome ∧ (RawSignature.ofJson? f.2).isSome

theorem isSome_readText?_iff {text : String} : (readText? text).isSome ↔ IsText text := by
  have read : (readText? text).isSome ↔
      ∃ j, Json.parse? text = some j ∧ (j.asPairs? RawSignature.ofJson?).isSome := by
    cases parsed : Json.parse? text <;> simp [readText?, parsed, Option.isSome_bind]
  rw [read]
  constructor
  · rintro ⟨j, parsed, pairs⟩
    cases j with
    | obj fields => exact ⟨fields, parsed, Json.isSome_asPairs?_obj.1 pairs⟩
    | _ => cases pairs
  · rintro ⟨fields, parsed, decoded⟩
    exact ⟨_, parsed, Json.isSome_asPairs?_obj.2 decoded⟩

theorem readText?_last {text : String} {raw : RawCatalog} (read : readText? text = some raw) :
    ∃ j, Json.parse? text = some j ∧
      ∀ name, Option.Rel (fun j sig => sig.ReadFrom j) (j.lastField? name) (raw.get? name) := by
  simp only [readText?, Option.bind_eq_bind, Option.bind_eq_some_iff, Option.pure_def,
    Option.some.injEq] at read
  obtain ⟨j, parsed, pairs, all, rfl⟩ := read
  refine ⟨j, parsed, fun name => ?_⟩
  have last := Json.rel_get?_asPairs? all name
  generalize j.lastField? name = given at last
  generalize (SortedMap.ofList pairs).get? name = stored at last
  cases last with
  | some read => exact .some (RawSignature.readFrom_of_ofJson? read)
  | none => exact .none

/-- A text that is no catalog changes nothing. Of any other text the types are taken by name, the
last one of a name, until one is incomplete: the error then names that type, its least faulty member
and, where the member is callable, its first argument without a label, and the catalog has received
the types that come before. -/
theorem extend_up_to_first_fault (c : Catalog) (text : String) :
    (¬ IsText text → c.extend text = (c, .error .malformed)) ∧
      (IsText text → ∃ raw, readText? text = some raw ∧
        (∃ j, Json.parse? text = some j ∧
          ∀ name, Option.Rel (fun j sig => sig.ReadFrom j) (j.lastField? name) (raw.get? name)) ∧
        ((c.extend text).2 = .ok () ↔ ∀ name sig, raw.get? name = some sig → sig.Complete) ∧
        ((c.extend text).2 = .ok () → c.Receives raw.toList (c.extend text).1) ∧
        ∀ e, (c.extend text).2 = .error e → ∃ name sig, raw.get? name = some sig ∧
          sig.Faults name e ∧
          (∀ other sig', other < name → raw.get? other = some sig' → sig'.Complete) ∧
          c.Receives (raw.toList.filter fun x => x.1 < name) (c.extend text).1) := by
  rw [← isSome_readText?_iff]
  refine ⟨fun malformed => ?_, fun legible => ?_⟩
  · rw [Option.not_isSome_iff_eq_none] at malformed
    simp [extend, malformed]
  obtain ⟨raw, read⟩ := Option.isSome_iff_exists.1 legible
  refine ⟨raw, read, readText?_last read, ?_⟩
  obtain ⟨ok, complete, received⟩ | ⟨name, sig, e, stored, fault, stopped, before, received⟩ :=
    extend_cases (c := c) read
  · refine ⟨⟨fun _ => complete, fun _ => ok⟩, fun _ => received, fun e stopped => ?_⟩
    rw [ok] at stopped
    cases stopped
  · have failed : (c.extend text).2 ≠ .ok () := by simp [stopped]
    refine ⟨⟨fun ok => absurd ok failed,
      fun complete => absurd (complete name sig stored) fault.not_complete⟩,
      fun ok => absurd ok failed, fun e' stopped' => ?_⟩
    obtain rfl : e = e' := by simpa [stopped] using stopped'
    exact ⟨name, sig, stored, fault, before, received⟩

/-- Of the types `a`, `b` and `c` the second has a function whose second argument lacks its
label. -/
def partlyLabelled : String :=
  let arguments : Json := .arr [.object [("label", .str "x")], .object []]
  let function : Json := .object [("type", .str "function"), ("arguments", arguments)]
  (Json.object [("c", .object []), ("b", .object [("definitions", .object [("f", function)])]),
    ("a", .object [])]).text

theorem extend_up_to_first_fault_partlyLabelled :
    IsText partlyLabelled ∧ ∃ raw, readText? partlyLabelled = some raw ∧
      ∃ name sig, raw.get? name = some sig ∧ sig.Faults name (.missingArgumentLabel "b" "f" 1) ∧
        (∀ other sig', other < name → raw.get? other = some sig' → sig'.Complete) ∧
        empty.Receives (raw.toList.filter fun x => x.1 < name) (empty.extend partlyLabelled).1 := by
  have isText : IsText partlyLabelled := isSome_readText?_iff.1 (by decide +kernel)
  obtain ⟨raw, read, _, _, _, failed⟩ := (extend_up_to_first_fault empty partlyLabelled).2 isText
  exact ⟨isText, raw, read, failed _ (by decide +kernel)⟩

end Catalog

end ScriptInference
