import ScriptInference.Hashing.Hasher
import ScriptInference.Proofs.Collection.Recency

/-!
# Cache and memo change no result

A hasher is faithful if its cache holds checksums and its memo holds hashes and ids. A new hasher is
faithful. Every computation of a hash or an id that starts from a faithful hasher gives the hash or
the id of the plain definitions and leaves a faithful hasher behind. The two facts are one
judgement, because a result is remembered as soon as it is computed; the proof follows the recursion
over the syntax.
-/

namespace ScriptInference.Hasher

structure Faithful (h : Hasher) : Prop where
  strings : h.strings.Remembers Crc32.ofText
  hashes : ∀ e v, (e, v) ∈ h.memo.hashes → v = e.hash
  ids : ∀ e v, (e, v) ∈ h.memo.ids → v = e.id

theorem faithful_new (capacity : Nat) : (new capacity).Faithful where
  strings := RecencyCache.remembers_new capacity _
  hashes _ _ hv := by cases hv
  ids _ _ hv := by cases hv

theorem faithful_of_reserve {capacity : Nat} {h : Hasher} (reserved : reserve capacity = .ok h) :
    h.Faithful := by
  unfold reserve at reserved
  cases made :
    (RecencyCache.reserve capacity : Except CapacityError (RecencyCache String UInt32)) with
  | error e =>
    rw [made] at reserved
    cases reserved
  | ok strings =>
    rw [made] at reserved
    cases reserved
    rw [(RecencyCache.reserve_eq_ok_iff.1 made).2]
    exact faithful_new capacity

/-- From every faithful hasher the computation gives this result and leaves a faithful hasher. -/
def Computes {α : Type} (x : HashM α) (a : α) : Prop :=
  ∀ h : Hasher, h.Faithful → ∃ h' : Hasher, x.run h = (a, h') ∧ h'.Faithful

section Rules
variable {α β : Type}

theorem Computes.pure (a : α) : Computes (pure a) a := fun h faithful => ⟨h, rfl, faithful⟩

theorem Computes.bind {x : HashM α} {f : α → HashM β} {a : α} {b : β} (hx : Computes x a)
    (hf : Computes (f a) b) : Computes (x >>= f) b := by
  intro h faithful
  obtain ⟨h₁, first, faithful₁⟩ := hx h faithful
  obtain ⟨h₂, second, faithful₂⟩ := hf h₁ faithful₁
  refine ⟨h₂, ?_, faithful₂⟩
  rw [StateT.run_bind, first]
  exact second

theorem computes_text (s : String) : Computes (text s) (Crc32.ofText s) := by
  intro h faithful
  obtain ⟨remembers, right⟩ := faithful.strings.get? s
  cases found : h.strings.get? s with
  | mk value strings =>
    rw [found] at remembers right
    cases value with
    | some v =>
      rw [← right v rfl]
      refine ⟨{ h with strings }, ?_, ⟨remembers, faithful.hashes, faithful.ids⟩⟩
      simp only [text, StateT.run_bind, StateT.run_get, pure_bind, found]
      rfl
    | none =>
      refine ⟨{ h with strings := (strings.set s (Crc32.ofText s)).2 }, ?_,
        ⟨remembers.set s, faithful.hashes, faithful.ids⟩⟩
      simp only [text, StateT.run_bind, StateT.run_get, pure_bind, found]
      rfl

theorem mem_of_find? {γ : Type} {l : List (Expr × γ)} {e : Expr} {v : γ}
    (h : (l.find? fun p => p.1 = e).map (·.2) = some v) : (e, v) ∈ l := by
  obtain ⟨⟨e', v'⟩, found, rfl⟩ := Option.map_eq_some_iff.1 h
  have same := List.find?_some found
  rw [decide_eq_true_eq] at same
  exact same ▸ List.mem_of_find?_eq_some found

/-- A result that is known is looked up, any other is computed and remembered. -/
theorem Computes.remember {known? : Memo → Option α} {put : Memo → α → Memo} {x : HashM α} {a : α}
    (known : ∀ h : Hasher, h.Faithful → ∀ v, known? h.memo = some v → v = a)
    (kept : ∀ h : Hasher, h.Faithful → { h with memo := put h.memo a }.Faithful)
    (hx : Computes x a) : Computes (Hasher.remember known? put x) a := by
  intro h faithful
  cases found : known? h.memo with
  | some v =>
    obtain rfl := known h faithful v found
    refine ⟨h, ?_, faithful⟩
    simp only [Hasher.remember, StateT.run_bind, StateT.run_get, pure_bind, found]
    rfl
  | none =>
    obtain ⟨h₁, run, faithful₁⟩ := hx h faithful
    refine ⟨_, ?_, kept h₁ faithful₁⟩
    simp only [Hasher.remember, StateT.run_bind, StateT.run_get, pure_bind, found, run]
    rfl

theorem computes_memoHash {e : Expr} {x : HashM UInt32} (hx : Computes x e.hash) :
    Computes (memoHash e x) e.hash := by
  refine hx.remember (fun h faithful v found => ?_)
    fun h faithful => ⟨faithful.strings, fun e' v hv => ?_, faithful.ids⟩
  · exact faithful.hashes e v (mem_of_find? found)
  · rcases List.mem_cons.1 hv with here | hv
    · cases here
      rfl
    · exact faithful.hashes e' v hv

theorem computes_memoId {e : Expr} {x : HashM String} (hx : Computes x e.id) :
    Computes (memoId e x) e.id := by
  refine hx.remember (fun h faithful v found => ?_)
    fun h faithful => ⟨faithful.strings, faithful.hashes, fun e' v hv => ?_⟩
  · exact faithful.ids e v (mem_of_find? found)
  · rcases List.mem_cons.1 hv with here | hv
    · cases here
      rfl
    · exact faithful.ids e' v hv

end Rules

section Hashes

theorem computes_identifierHash (name : String) :
    Computes (identifierHash name) (ScriptInference.identifierHash name) :=
  (computes_text name).bind (.pure _)

theorem computes_memberHash (base : Expr) {baseHash : HashM UInt32}
    (hb : Computes baseHash base.hash) (name : String) :
    Computes (memberHash base baseHash name) (ScriptInference.memberHash base base.hash name) := by
  unfold memberHash ScriptInference.memberHash
  split
  · exact computes_identifierHash name
  · exact hb.bind ((computes_text name).bind (.pure _))

mutual

theorem computes_hash : ∀ e : Expr, Computes (hash e) e.hash
  | .nil _ => computes_memoHash (.pure _)
  | .string v _ => computes_memoHash ((computes_text v).bind (.pure _))
  | .number _ _ | .boolean _ _ => computes_memoHash (.pure _)
  | .identifier n _ => computes_memoHash (computes_identifierHash n)
  | .member b n _ => computes_memoHash (computes_memberHash b (computes_hash b) n)
  | .index b i s => by
    rw [hash]
    apply computes_memoHash
    rw [Expr.hash]
    cases i.stringLiteral? with
    | some n => exact computes_memberHash b (computes_hash b) n
    | none => exact (computes_hash b).bind ((computes_hash i).bind (.pure _))
  | .slice b l r _ => computes_memoHash <|
    (computes_hash b).bind <| (computes_hashOption l).bind <| (computes_hashOption r).bind (.pure _)
  | .call b as _ => computes_memoHash ((computes_hash b).bind (computes_hashExprs _ as))
  | .unary o a _ =>
    computes_memoHash ((computes_text o.symbol).bind ((computes_hash a).bind (.pure _)))
  | .binary l o r _ => computes_memoHash <|
    (computes_hash l).bind <| (computes_text o.symbol).bind <| (computes_hash r).bind (.pure _)
  | .map fs _ => computes_memoHash (computes_hashFields _ fs)
  | .list is _ => computes_memoHash (computes_hashExprs _ is)
  | .function d _ => computes_memoHash (computes_hashFunction d)
  | .unknown k _ => computes_memoHash ((computes_text k).bind (.pure _))

theorem computes_hashOption : ∀ e : Option Expr,
    Computes (hashOption e) (ScriptInference.hashOption e)
  | none => .pure _
  | some e => computes_hash e

theorem computes_hashExprs (acc : UInt32) :
    ∀ es : List Expr, Computes (hashExprs acc es) (ScriptInference.hashExprs acc es)
  | [] => .pure _
  | e :: es => (computes_hash e).bind (computes_hashExprs _ es)

theorem computes_hashFields (acc : UInt32) :
    ∀ fs : Fields, Computes (hashFields acc fs) (ScriptInference.hashFields acc fs)
  | [] => .pure _
  | (k, v) :: fs => (computes_hash k).bind ((computes_hash v).bind (computes_hashFields _ fs))

theorem computes_hashFunction : ∀ f : FunctionDecl, Computes (hashFunction f) f.hash
  | .mk ps b _ => (computes_hashParams _ ps).bind (computes_hashStmts _ b)

theorem computes_hashParams (acc : UInt32) :
    ∀ ps : List Param, Computes (hashParams acc ps) (ScriptInference.hashParams acc ps)
  | [] => .pure _
  | p :: ps => (computes_hashParam acc p).bind (computes_hashParams _ ps)

theorem computes_hashParam (acc : UInt32) : ∀ p : Param, Computes (hashParam acc p) (p.hashOnto acc)
  | .plain n _ => (computes_text n).bind (.pure _)
  | .withDefault n d _ => (computes_text n).bind ((computes_hash d).bind (.pure _))

theorem computes_hashStmts (acc : UInt32) :
    ∀ ss : List Stmt, Computes (hashStmts acc ss) (ScriptInference.hashStmts acc ss)
  | [] => .pure _
  | s :: ss => (computes_hashStmt s).bind (computes_hashStmts _ ss)

theorem computes_hashClauses (acc : UInt32) :
    ∀ cs : Clauses,
      Computes (hashClauses acc cs) (ScriptInference.hashClauses acc cs)
  | [] => .pure _
  | (c, b) :: cs =>
    (computes_hash c).bind ((computes_hashStmts _ b).bind (computes_hashClauses _ cs))

theorem computes_hashElse (acc : UInt32) :
    ∀ o : Option (List Stmt), Computes (hashElse acc o) (ScriptInference.hashElse acc o)
  | none => .pure _
  | some b => (computes_text "else").bind (computes_hashStmts _ b)

theorem computes_hashStmt : ∀ s : Stmt, Computes (hashStmt s) s.hash
  | .assign t i _ => (computes_hash t).bind ((computes_hash i).bind (.pure _))
  | .expr e => (computes_hash e).bind (.pure _)
  | .cond cs o _ =>
    (computes_text "if").bind ((computes_hashClauses _ cs).bind (computes_hashElse _ o))
  | .whileLoop c b _ =>
    (computes_text "while").bind ((computes_hash c).bind (computes_hashStmts _ b))
  | .forLoop v i b _ =>
    (computes_text "for").bind <|
      (computes_hash v).bind <| (computes_hash i).bind (computes_hashStmts _ b)
  | .ret a _ => (computes_text "return").bind ((computes_hashOption a).bind (.pure _))
  | .exit _ => (computes_text "break").bind (.pure _)
  | .next _ => (computes_text "continue").bind (.pure _)

end

end Hashes

section Ids

theorem computes_memberId (base : Expr) {baseId : HashM String} (hb : Computes baseId base.id)
    (name : String) :
    Computes (memberId base baseId name) (ScriptInference.memberId base base.id name) := by
  unfold memberId ScriptInference.memberId
  split
  · exact .pure _
  · exact hb.bind (.pure _)

mutual

theorem computes_id : ∀ e : Expr, Computes (id e) e.id
  | .nil _ | .string _ _ | .number _ _ | .boolean _ _ | .identifier _ _ => computes_memoId (.pure _)
  | .member b n _ => computes_memoId (computes_memberId b (computes_id b) n)
  | .index b i s => by
    rw [id]
    apply computes_memoId
    rw [Expr.id]
    cases i.stringLiteral? with
    | some n => exact computes_memberId b (computes_id b) n
    | none => exact (computes_id b).bind ((computes_id i).bind (.pure _))
  | .slice b l r _ => computes_memoId <|
    (computes_id b).bind <| (computes_idOption l).bind <| (computes_idOption r).bind (.pure _)
  | .call b as _ => computes_memoId ((computes_id b).bind ((computes_idExprs as).bind (.pure _)))
  | .unary _ a _ => computes_memoId ((computes_id a).bind (.pure _))
  | .binary l _ r _ => computes_memoId ((computes_id l).bind ((computes_id r).bind (.pure _)))
  | .map fs _ => computes_memoId ((computes_idFields fs).bind (.pure _))
  | .list is _ => computes_memoId ((computes_idExprs is).bind (.pure _))
  | .function d _ => computes_memoId (computes_idFunction d)
  | .unknown _ _ => computes_memoId (.pure _)

theorem computes_idOption : ∀ e : Option Expr, Computes (idOption e) (ScriptInference.idOption e)
  | none => .pure _
  | some e => computes_id e

theorem computes_idExprs : ∀ es : List Expr, Computes (idExprs es) (ScriptInference.idExprs es)
  | [] => .pure _
  | e :: es => (computes_id e).bind ((computes_idExprs es).bind (.pure _))

theorem computes_idFields :
    ∀ fs : Fields, Computes (idFields fs) (ScriptInference.idFields fs)
  | [] => .pure _
  | (k, v) :: fs =>
    (computes_id k).bind <| (computes_id v).bind <| (computes_idFields fs).bind (.pure _)

theorem computes_idFunction : ∀ f : FunctionDecl, Computes (idFunction f) f.canonicalId
  | .mk ps b _ => (computes_idParams ps).bind ((computes_idStmts b).bind (.pure _))

theorem computes_idParams : ∀ ps : List Param, Computes (idParams ps) (ScriptInference.idParams ps)
  | [] => .pure _
  | p :: ps => (computes_idParam p).bind ((computes_idParams ps).bind (.pure _))

theorem computes_idParam : ∀ p : Param, Computes (idParam p) p.canonicalId
  | .plain _ _ => .pure _
  | .withDefault _ d _ => (computes_id d).bind (.pure _)

theorem computes_idStmts : ∀ ss : List Stmt, Computes (idStmts ss) (ScriptInference.idStmts ss)
  | [] => .pure _
  | s :: ss => (computes_idStmt s).bind ((computes_idStmts ss).bind (.pure _))

theorem computes_idElse :
    ∀ o : Option (List Stmt), Computes (idElse o) (ScriptInference.idElse o)
  | none => .pure _
  | some b => (computes_idStmts b).bind (.pure _)

theorem computes_idClauses :
    ∀ cs : Clauses, Computes (idClauses cs) (ScriptInference.idClauses cs)
  | [] => .pure _
  | (c, b) :: cs =>
    (computes_id c).bind <| (computes_idStmts b).bind <| (computes_idClauses cs).bind (.pure _)

theorem computes_idStmt : ∀ s : Stmt, Computes (idStmt s) s.id
  | .assign t i _ => (computes_id t).bind ((computes_id i).bind (.pure _))
  | .expr e => computes_id e
  | .cond cs o _ => (computes_idClauses cs).bind ((computes_idElse o).bind (.pure _))
  | .whileLoop c b _ => (computes_id c).bind ((computes_idStmts b).bind (.pure _))
  | .forLoop v i b _ =>
    (computes_id v).bind <| (computes_id i).bind <| (computes_idStmts b).bind (.pure _)
  | .ret (some a) _ => (computes_id a).bind (.pure _)
  | .ret none _ | .exit _ | .next _ => .pure _

end

end Ids

end ScriptInference.Hasher
