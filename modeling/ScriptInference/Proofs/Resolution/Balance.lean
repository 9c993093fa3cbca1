import ScriptInference.Proofs.Resolution.Discipline

/-!
# Reading under a discipline

Looking up members, asking the registry and resolving names give back exactly one hold, on the
entity that they return, and leave the store in order.
-/

namespace ScriptInference

variable {h : Handle} {r : TypeRegistry}

namespace Discipline
variable {D : Discipline} {s : Store} {own : Multiset Handle} {m : Handle}

theorem live_member (l : D.InOrder own s) (hh : D.Open s h) (hm : m ∈ (s.node h).members.values) :
    D.Live s m :=
  D.held l hh (List.mem_append_left _ (List.mem_append_left _ hm))

theorem live_findName? (l : D.InOrder own s) (hh : D.Open s h) {name : String}
    (hm : s.findName? h name = some m) : D.Live s m := by
  obtain ⟨n, hn, member⟩ := List.exists_of_findSome?_eq_some hm
  exact D.live_member l (D.chain l hh hn) (SortedMap.mem_values_iff.2 ⟨_, member⟩)

theorem live_findIndexed (l : D.InOrder own s) (hh : D.Open s h) {types : SortedSet String}
    (hm : m ∈ s.findIndexed h types) : D.Live s m := by
  obtain ⟨n, hn, listed⟩ := Store.exists_of_mem_findIndexed hm
  exact D.live_member l (D.chain l hh hn) listed

end Discipline

namespace Infer
variable {D : Discipline} {s : Store} {own : Multiset Handle}

section Members

theorem balanced_lookup (l : D.InOrder own s) (hh : D.Open s h) (key : Property) :
    Balanced D s (lookup h key) (fun r => holding r.toList own) fun _ => True := by
  cases key with
  | identifier name =>
    refine .bind_get ?_
    split
    · rename_i found hfound
      exact .some (balanced_retain l (D.live_findName? l hh hfound))
    · exact .none l
  | value k =>
    refine .bind_get ?_
    have alive : ∀ m ∈ s.findIndexed h (s.node k).types, D.Live s m := fun m hm =>
      D.live_findIndexed l hh hm
    split
    · exact .none l
    · rename_i found hfound
      exact .some (balanced_retain l (alive found (by simp [hfound])))
    · rename_i first rest _ hfound
      exact .some (balanced_union l _ _ (hfound ▸ alive))

theorem balanced_invoke (l : D.InOrder own s) (hh : D.Open s h) :
    Balanced D s (invoke h) (· ::ₘ own) D.New := by
  refine .bind_node ?_
  split
  · rename_i r result
    have held : r ∈ (s.node h).holds :=
      List.mem_append_left _ (List.mem_append_right _ (Option.mem_toList.2 result))
    exact balanced_copy l (D.open_of_live (D.held l hh held)) _
  · exact balanced_make l rfl

theorem balanced_readMember {found : Handle} (l : D.InOrder (found ::ₘ own) s) (suppress : Bool) :
    Balanced D s (readMember found suppress) (· ::ₘ own) fun _ => True := by
  refine .bind_node ?_
  split
  · refine (balanced_invoke l (D.open_of_live (D.live_head l))).bind fun t called l' _ => ?_
    rw [Multiset.cons_swap] at l'
    exact (balanced_release l').bind fun u _ l'' _ => .pure l'' trivial
  · exact .pure l trivial

theorem balanced_resolveMember (l : D.InOrder own s) (hh : D.Open s h) (key : Property)
    (suppress : Bool) :
    Balanced D s (resolveMember h key suppress) (fun r => holding r.toList own) fun _ => True := by
  refine (balanced_lookup l hh key).bind fun t r l' _ => ?_
  cases r with
  | none => exact .none l'
  | some found => exact .some (balanced_readMember l' suppress)

theorem balanced_detach (l : D.InOrder (h ::ₘ own) s) :
    Balanced D s (detach h) (· ::ₘ own) D.New := by
  refine (balanced_copy l (D.open_of_live (D.live_head l)) {}).bind fun t fresh l' new => ?_
  rw [Multiset.cons_swap] at l'
  exact (balanced_release l').bind fun u _ l'' _ => .pure l'' new

end Members

section Settling

/-- The handles that matches are found under. -/
abbrev matched (found : List (String × Handle)) : List Handle := found.map (·.2)

theorem balanced_matching {find : String → Handle → Infer (Option Handle)}
    {l : List (String × Handle)} {more : Multiset Handle} (le : own ≤ more)
    (ledger : D.InOrder more s)
    (balanced : ∀ own' t, own ≤ own' → D.InOrder own' t → ∀ entry ∈ l,
      Balanced D t (find entry.1 entry.2) (fun r => holding r.toList own') fun _ => True) :
    Balanced D s (matching find l) (fun r => holding (matched r) more) fun _ => True := by
  induction l generalizing s more with
  | nil => exact .pure ledger trivial
  | cons entry rest ih =>
    refine (balanced more s le ledger entry List.mem_cons_self).bind fun t found l' _ => ?_
    have others := ih (le.trans (le_holding found.toList more)) l' fun own' t le l entry he =>
      balanced own' t le l entry (List.mem_cons_of_mem _ he)
    refine others.bind fun u others l'' _ => .pure ?_ trivial
    have shuffled : holding (matched (found.toList.map (fun f => (entry.1, f)) ++ others)) more =
        holding (matched others) (holding found.toList more) := by
      rw [← holding_append]
      refine holding_perm ?_
      simp only [matched, List.map_append, List.map_map, Function.comp_def, List.map_id']
      exact List.perm_append_comm
    rw [shuffled]
    exact l''

theorem balanced_pick {found : List (String × Handle)} {chosen : Handle}
    (l : D.InOrder (holding (matched found) own) s) (listed : chosen ∈ matched found) :
    Balanced D s (pick chosen found) (fun r => holding r.toList own) fun _ => True := by
  have kept : holding (matched found) own =
      holding ((matched found).erase chosen) (chosen ::ₘ own) := by
    rw [holding_perm (List.perm_cons_erase listed), ← cons_holding]
    rfl
  rw [kept] at l
  exact (balanced_releaseAll l).bind fun t _ l' _ => .pure l' trivial

theorem balanced_settle {found : List (String × Handle)} {general : Infer (Option Handle)}
    (l : D.InOrder (holding (matched found) own) s) (count : Nat) (label : String)
    (balanced : Balanced D s general
      (fun r => holding r.toList (holding (matched found) own)) fun _ => True) :
    Balanced D s (settle count found label general) (fun r => holding r.toList own)
      fun _ => True := by
  unfold settle
  split
  · exact .none l
  · rename_i name first rest
    have first_listed : first ∈ matched ((name, first) :: rest) := List.mem_cons_self
    split
    · exact balanced_pick l first_listed
    · split
      · rename_i key h hmatch
        exact balanced_pick l (List.mem_map_of_mem (List.mem_of_find?_eq_some hmatch))
      · refine balanced.bind fun t g' l' _ => ?_
        cases g' with
        | some g' =>
          change D.InOrder (g' ::ₘ holding (matched ((name, first) :: rest)) own) t at l'
          rw [cons_holding] at l'
          exact (balanced_releaseAll l').bind fun u _ l'' _ => .pure l'' trivial
        | none =>
          change D.InOrder (holding (matched ((name, first) :: rest)) own) t at l'
          dsimp only
          split
          · rename_i only
            rw [List.isEmpty_iff] at only
            subst only
            exact .pure l' trivial
          · refine .bind_node ?_
            have alive : ∀ b ∈ matched ((name, first) :: rest), D.Live t b := fun b hb =>
              D.live_of_mem l' (mem_holding.2 (.inl hb))
            refine (balanced_union l' _ _ alive).bind fun u merged l'' _ => ?_
            rw [cons_holding] at l''
            exact (balanced_releaseAll l'').bind fun v _ done _ => .pure done trivial

end Settling

end Infer

namespace TypeRegistry

theorem mem_holds_of_type? {name : String} (hh : r.type? name = some h) : h ∈ r.holds :=
  List.mem_append_right _ (SortedMap.mem_values_iff.2 ⟨name, hh⟩)

theorem mem_holds_of_mem_candidates {types : SortedSet String} {entry : String × Handle}
    (he : entry ∈ r.candidates types) : entry.2 ∈ r.holds := by
  unfold candidates at he
  split at he
  · exact List.mem_append_right _ (List.mem_map_of_mem he)
  · obtain ⟨name, -, found⟩ := List.mem_filterMap.1 he
    obtain ⟨h, hh, rfl⟩ := Option.map_eq_some_iff.1 found
    exact mem_holds_of_type? hh

end TypeRegistry

/-- The entities of the registry may be read as long as the store is in order. -/
def TypeRegistry.Known (r : TypeRegistry) (D : Discipline) (own : Multiset Handle) : Prop :=
  ∀ h ∈ r.holds, D.Known own h

theorem TypeRegistry.Known.mono {D : Discipline} {own own' : Multiset Handle}
    (known : r.Known D own) (le : own ≤ own') : r.Known D own' := fun h hh => (known h hh).mono le

namespace Infer
variable {D : Discipline} {s : Store} {own : Multiset Handle}

section Definitions

/-- A member of a registered type is handed out as a copy. -/
theorem balanced_definedOn (l : D.InOrder own s) (hh : D.Open s h) (property : String)
    (suppress : Bool) :
    Balanced D s (definedOn h property suppress) (fun r => holding r.toList own) fun _ => True := by
  refine (balanced_resolveMember l hh _ suppress).bind fun t found l' _ => ?_
  cases found with
  | none => exact .none l'
  | some found => exact .some (balanced_detach l')

variable (known : r.Known D own)

include known

variable (l : D.InOrder own s)

include l

theorem balanced_generalDefinition (property : String) (suppress : Bool) :
    Balanced D s (generalDefinition r property suppress) (fun r => holding r.toList own)
      fun _ => True := by
  unfold generalDefinition
  split
  · exact .none l
  · rename_i h registered
    have alive := (known h (TypeRegistry.mem_holds_of_type? registered)).isOpen l
    exact balanced_definedOn l alive property suppress

theorem balanced_definition (types : SortedSet String) (property : String) (suppress : Bool) :
    Balanced D s (definition r types property suppress) (fun r => holding r.toList own)
      fun _ => True := by
  refine (balanced_matching (le_refl own) l fun own' t le l' entry he => ?_).bind
    fun t found l' _ => ?_
  · have held := (known entry.2 (TypeRegistry.mem_holds_of_mem_candidates he)).mono le
    exact balanced_definedOn l' (held.isOpen l') property suppress
  · exact balanced_settle l' _ _
      (balanced_generalDefinition (known.mono (le_holding _ own)) l' property suppress)

theorem balanced_indexDefinition (types : SortedSet String) (key : Handle) :
    Balanced D s (indexDefinition r types key) (fun r => holding r.toList own) fun _ => True := by
  refine .bind_node ?_
  refine (balanced_matching (le_refl own) l fun own' t le l' entry he => ?_).bind
    fun t found l' _ => balanced_settle l' _ _ (.none l')
  have held := (known entry.2 (TypeRegistry.mem_holds_of_mem_candidates he)).mono le
  refine (balanced_lookup l' (held.isOpen l') _).bind fun u found l'' _ => ?_
  cases found with
  | some found => exact .some (balanced_detach l'')
  | none =>
    dsimp only
    split
    · exact .none l''
    · exact .some (balanced_make l'' rfl)

theorem balanced_resolveProperty (hh : D.Open s h) (key : Property) (suppress : Bool) :
    Balanced D s (resolveProperty r h key suppress) (· ::ₘ own) fun _ => True := by
  refine (balanced_resolveMember l hh key suppress).bind fun t found l' _ => ?_
  cases found with
  | some found => exact .pure l' trivial
  | none =>
    refine .bind_node ?_
    cases key with
    | identifier name =>
      refine (balanced_definition known l' _ name suppress).bind fun u found l'' _ => ?_
      cases found with
      | some found => exact .pure l'' trivial
      | none => exact (balanced_make l'' rfl).forget
    | value k =>
      refine (balanced_indexDefinition known l' _ k).bind fun u found l'' _ => ?_
      cases found with
      | some found => exact .pure l'' trivial
      | none => exact (balanced_make l'' rfl).forget

end Definitions

end Infer

/-- The entities of the scope may be held as long as the store is in order. -/
def Scope.Anchored (c : Scope) (D : Discipline) (own : Multiset Handle) : Prop :=
  ∀ h ∈ c.holds, D.Anchored own h

namespace Scope
variable {c : Scope} {D : Discipline} {own own' : Multiset Handle}

theorem Anchored.mono (anchored : c.Anchored D own) (le : own ≤ own') :
    c.Anchored D own' := fun h hh =>
  (anchored h hh).mono le

end Scope

namespace Infer
variable {D : Discipline} {s : Store} {own : Multiset Handle} {c : Scope}

theorem balanced_resolveReserved (anchored : c.Anchored D own) (l : D.InOrder own s)
    (name : String) :
    Balanced D s (resolveReserved c name) (fun r => holding r.toList own) fun _ => True := by
  unfold resolveReserved
  split
  · exact .none l
  · rename_i h stored
    have alive := (anchored h (Scope.mem_holds_of_pseudo? stored)).live l
    exact .some (balanced_retain l alive)
  · exact .some (balanced_make l rfl)

theorem balanced_lookupName (anchored : c.Anchored D own) (l : D.InOrder own s) (name : String) :
    Balanced D s (lookupName c name) (fun r => holding r.toList own) fun _ => True := by
  refine .bind_get ?_
  split
  · exact .none l
  · rename_i h found
    obtain ⟨n, held, named⟩ := Scope.exists_mem_holds_of_find? found
    have opened := D.open_of_live ((anchored n held).live l)
    exact .some (balanced_retain l (D.live_findName? l opened named))

theorem balanced_resolveName (known : r.Known D own) (anchored : c.Anchored D own)
    (l : D.InOrder own s) (name : String) (suppress : Bool) :
    Balanced D s (resolveName r c name suppress) (· ::ₘ own) fun _ => True := by
  refine (balanced_resolveReserved anchored l name).bind fun t reserved l' _ => ?_
  cases reserved with
  | some h => exact .pure l' trivial
  | none =>
    refine (balanced_lookupName anchored l' name).bind fun u found l'' _ => ?_
    cases found with
    | some found => exact balanced_readMember l'' suppress
    | none =>
      refine (balanced_generalDefinition known l'' name suppress).bind fun v found done _ => ?_
      cases found with
      | some found => exact .pure done trivial
      | none => exact (balanced_make done rfl).forget

end Infer

end ScriptInference
