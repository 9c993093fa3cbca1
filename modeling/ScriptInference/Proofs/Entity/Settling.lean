import Mathlib.Data.Finset.Lattice.Fold
import ScriptInference.Proofs.Entity.JoinEnding

/-!
# Computations that settle

A computation over the store ends if it has a result as soon as its joins may take enough steps. It
settles if its results do not depend on how many more steps are allowed, and if it can fail to end
in one way only: by making nodes without limit. A single join settles, and sequencing keeps the
property. So for everything that is composed of joins and of steps that always finish, ending is the
same as making a bounded number of nodes.
-/

namespace ScriptInference.Infer
variable {s t : Store} {bound : Nat} {mode : JoinMode}
variable {α β : Type}

/-- The computation has a result, given enough steps. -/
def Ends (x : Infer α) (s : Store) : Prop := ∃ bound r, x bound s = .ok r

/-- The store in which a computation stops, finished or not. -/
def stop (x : Infer α) (bound : Nat) (s : Store) : Store :=
  match x bound s with
  | .ok r => r.2
  | .error t => t

/-- However many steps are allowed, the store stays within one size. -/
def Bounded (x : Infer α) (s : Store) : Prop := ∃ limit, ∀ bound, (x.stop bound s).size ≤ limit

structure SettlesAt (x : Infer α) (s : Store) : Prop where
  mono : ∀ {bound more r}, bound ≤ more → x bound s = .ok r → x more s = .ok r
  ends : ∀ limit start, (∀ bound, start ≤ bound → ∀ t, x bound s = .error t → t.size ≤ limit) →
    x.Ends s

theorem stop_of_ok {x : Infer α} {r : α × Store} (h : x bound s = .ok r) :
    x.stop bound s = r.2 := by
  simp [stop, h]

theorem stop_of_error {x : Infer α} (h : x bound s = .error t) : x.stop bound s = t := by
  simp [stop, h]

theorem bind_apply (x : Infer α) (f : α → Infer β) (bound : Nat) (s : Store) :
    (x >>= f) bound s = (x bound s >>= fun r => f r.1 bound r.2) := rfl

theorem bind_ok {x : Infer α} {f : α → Infer β} {r : β × Store} (h : (x >>= f) bound s = .ok r) :
    ∃ a t, x bound s = .ok (a, t) ∧ f a bound t = .ok r := by
  rw [bind_apply] at h
  cases hx : x bound s with
  | error t =>
    rw [hx] at h
    cases h
  | ok p =>
    rw [hx] at h
    exact ⟨p.1, p.2, rfl, h⟩

theorem bind_of_ok {x : Infer α} {a : α} (h : x bound s = .ok (a, t)) (f : α → Infer β) :
    (x >>= f) bound s = f a bound t := by
  rw [bind_apply, h]
  rfl

theorem bind_of_error {x : Infer α} (h : x bound s = .error t) (f : α → Infer β) :
    (x >>= f) bound s = .error t := by
  rw [bind_apply, h]
  rfl

namespace SettlesAt

/-- A computation that settles ends exactly if it makes a bounded number of nodes. -/
theorem ends_iff_bounded {x : Infer α} (h : x.SettlesAt s) : x.Ends s ↔ x.Bounded s := by
  constructor
  · rintro ⟨enough, r, hr⟩
    -- from `enough` steps on the outcome is fixed, and before that there are finitely many
    refine ⟨(Finset.range (enough + 1)).sup fun bound => (x.stop bound s).size, fun bound => ?_⟩
    have listed : ∀ k ≤ enough, (x.stop k s).size ≤
        (Finset.range (enough + 1)).sup fun bound => (x.stop bound s).size := fun k hk =>
      Finset.le_sup (f := fun bound => (x.stop bound s).size) (Finset.mem_range.2 (by omega))
    rcases Nat.le_total bound enough with hle | hle
    · exact listed bound hle
    · rw [stop_of_ok (h.mono hle hr), ← stop_of_ok hr]
      exact listed enough (Nat.le_refl _)
  · rintro ⟨limit, small⟩
    refine h.ends limit 0 fun bound _ t ht => ?_
    rw [← stop_of_error ht]
    exact small bound

/-- What finishes at once settles. -/
theorem of_total {x : Infer α} {r : α × Store} (h : ∀ bound, x bound s = .ok r) :
    x.SettlesAt s where
  mono {bound more r'} _ hr := by
    rw [h more, ← h bound, hr]
  ends _ _ _ := ⟨0, r, h 0⟩

/-- Only what the computation does from the given store matters. -/
theorem congr {x y : Infer α} (hy : y.SettlesAt s) (same : ∀ bound, x bound s = y bound s) :
    x.SettlesAt s where
  mono {bound more r} hle hr := by
    rw [same] at hr ⊢
    exact hy.mono hle hr
  ends limit start small := by
    obtain ⟨bound, r, hr⟩ :=
      hy.ends limit start fun bound hb t ht => small bound hb t ((same bound).trans ht)
    exact ⟨bound, r, (same bound).trans hr⟩

/-- A sequence ends if its parts do. -/
theorem bind_ends {x : Infer α} {f : α → Infer β} (hx : x.SettlesAt s)
    (hf : ∀ bound a t, x bound s = .ok (a, t) → (f a).SettlesAt t) (first : x.Ends s)
    (second : ∀ bound a t, x bound s = .ok (a, t) → (f a).Ends t) : (x >>= f).Ends s := by
  obtain ⟨enough, ⟨a, t⟩, ha⟩ := first
  obtain ⟨more, r, hr⟩ := second enough a t ha
  refine ⟨max enough more, r, ?_⟩
  rw [bind_of_ok (hx.mono (Nat.le_max_left enough more) ha)]
  exact (hf enough a t ha).mono (Nat.le_max_right enough more) hr

theorem bind {x : Infer α} {f : α → Infer β} (hx : x.SettlesAt s)
    (hf : ∀ bound a t, x bound s = .ok (a, t) → (f a).SettlesAt t) : (x >>= f).SettlesAt s where
  mono {bound more r} hle hr := by
    obtain ⟨a, t, ha, hr⟩ := bind_ok hr
    rw [bind_of_ok (hx.mono hle ha)]
    exact (hf bound a t ha).mono hle hr
  ends limit start small := by
    refine hx.bind_ends hf ?_ fun enough a t ha => ?_
    · exact hx.ends limit start fun bound hb t ht => small bound hb t (bind_of_error ht f)
    · refine (hf enough a t ha).ends limit (max start enough) fun bound hb u hu => ?_
      refine small bound (by omega) u ?_
      rw [bind_of_ok (hx.mono (by omega) ha)]
      exact hu

end SettlesAt

theorem join_ok {a b : Handle} {r : Unit × Store} (h : join mode a b bound s = .ok r) :
    s.joinWithin mode bound a b = .ok r.2 := by
  unfold join at h
  cases ht : s.joinWithin mode bound a b with
  | error t =>
    rw [ht] at h
    cases h
  | ok t =>
    rw [ht] at h
    cases h
    rfl

theorem join_of_ok {a b : Handle} (h : s.joinWithin mode bound a b = .ok t) :
    join mode a b bound s = .ok ((), t) := by
  rw [join, h]
  rfl

theorem settlesAt_join (mode : JoinMode) (a b : Handle) (s : Store) :
    (join mode a b).SettlesAt s where
  mono {bound more r} hle hr := by
    exact join_of_ok (Joining.run_mono hle (join_ok hr))
  ends limit start small := by
    obtain ⟨bound, ⟨t, ht⟩ | ⟨t, ht, outgrown⟩⟩ :=
      (Joining.enter mode a b { store := s }).ends_or_outgrows mode limit
    · exact ⟨bound, ((), t), join_of_ok ht⟩
    · -- with more steps the join is either done or at least as large
      cases hu : s.joinWithin mode (max bound start) a b with
      | ok u => exact ⟨max bound start, ((), u), join_of_ok hu⟩
      | error u =>
        have grown : t.Grows u := Joining.grows_of_error_of_le (Nat.le_max_left _ _) ht hu
        have kept : u.size ≤ limit :=
          small (max bound start) (Nat.le_max_right _ _) u (by rw [join, hu]; rfl)
        have size_le := grown.size_le
        omega

theorem settlesAt_joinAll (mode : JoinMode) (a : Handle) (members : List Handle) (s : Store) :
    (joinAll mode a members).SettlesAt s := by
  induction members generalizing s with
  | nil => exact .of_total fun _ => rfl
  | cons b rest ih => exact (settlesAt_join mode a b s).bind fun _ _ t _ => ih t

theorem settlesAt_union (kind : EntityKind) (label : String) (members : List Handle) (s : Store) :
    (union kind label members).SettlesAt s := by
  have made : (alloc { kind, label }).SettlesAt s := .of_total fun _ => rfl
  refine made.bind fun _ merged t _ => ?_
  exact (settlesAt_joinAll _ merged members t).bind fun _ _ _ _ => .of_total fun _ => rfl

end ScriptInference.Infer
