import ScriptInference.Proofs.Syntax.Decoding

/-!
# Handing chunks over

A chunk that is written as text and read again comes back unchanged when its numbers are finite and
its block ids are distinct. A number that is not finite makes the text malformed; otherwise the
first block id that repeats an earlier one is reported. The nesting of the text is bounded by what
the reader allows, and every finite number of the chunk is supposed to be read back from its
numeral.
-/

namespace ScriptInference

open Json

/-! ### What the text of a tree contains -/

theorem Numeral.spelled_ofNat (n : Nat) : (Numeral.ofNat n).Spelled := by
  refine ⟨Digit.ofNat_ne_nil n, ?_⟩
  rcases Nat.eq_zero_or_pos n with rfl | positive
  · simp [Numeral.ofNat, Digit.ofNat_zero]
  · obtain ⟨d, ds, digits, nonzero⟩ := Digit.ofNat_eq_cons positive
    simp [Numeral.ofNat, digits, nonzero]

/-- All digits are taken as long as the number stays below `2^64`. -/
theorem Numeral.takeDigits_length {ds : List Digit} {start : Nat}
    (small : start * 10 ^ ds.length + Digit.value ds < 2 ^ 64) :
    (takeDigits start ds).2 = ds.length := by
  induction ds generalizing start with
  | nil => rfl
  | cons d ds ih =>
    have value : Digit.value (d :: ds) = d.val * 10 ^ ds.length + Digit.value ds := by
      rw [← List.singleton_append, Digit.value_append]
      simp [Digit.value]
    have rest : (start * 10 + d.val) * 10 ^ ds.length + Digit.value ds < 2 ^ 64 := by
      rw [value, List.length_cons, pow_succ] at small
      calc (start * 10 + d.val) * 10 ^ ds.length + Digit.value ds
          = start * (10 ^ ds.length * 10) + (d.val * 10 ^ ds.length + Digit.value ds) := by ring
        _ < 2 ^ 64 := small
    have next : ¬ Nat.pow 2 64 ≤ start * 10 + d.val := by
      have := Nat.le_mul_of_pos_right (start * 10 + d.val)
        (Nat.pow_pos (n := ds.length) (show 0 < 10 by decide))
      rw [Nat.pow_eq]
      omega
    rw [takeDigits]
    dsimp only
    rw [if_neg next, ih rest, List.length_cons]

/-- The numeral is spelled as JSON asks, and its value is not too large. -/
structure Numeral.Passes (n : Numeral) : Prop where
  spelled : n.Spelled
  denotes : n.scaled?.isSome

theorem Numeral.passes_ofNat (n : UInt64) : (Numeral.ofNat n.toNat).Passes := by
  have small :
      0 * 10 ^ (Digit.ofNat n.toNat).length + Digit.value (Digit.ofNat n.toNat) < 2 ^ 64 := by
    simpa using n.toNat_lt
  have all : (takeDigits 0 (Numeral.ofNat n.toNat).whole).2 =
      (Numeral.ofNat n.toNat).whole.length :=
    takeDigits_length small
  refine ⟨Numeral.spelled_ofNat _, ?_⟩
  rw [Numeral.scaled?, all, Nat.sub_self]
  rfl

@[simp]
theorem Json.leaves_tagged {ok : Numeral → Prop} {tag : String} {fields : List (String × Json)} :
    (tagged tag fields).Leaves ok ↔ ∀ f ∈ fields, f.2.Leaves ok := by
  simp [tagged, leaves_object, leaves_str]

/-- The numeral of a finite number that is met is as demanded. -/
def Event.Writes (ok : Numeral → Prop) : Event → Prop
  | expression (.number x _) => x.isFinite → ok (Json.numberFormat.numeral x)
  | _ => True

theorem Event.writes_spelled (e : Event) : e.Writes Numeral.Spelled := by
  unfold Writes
  split
  · exact fun finite => numberFormat.spelled_numeral finite
  · exact trivial

theorem Event.Legible.writes_passes {e : Event} (legible : e.Legible) :
    e.Writes Numeral.Passes := by
  unfold Writes
  split
  · rename_i x s
    exact fun finite =>
      ⟨numberFormat.spelled_numeral finite, Option.isSome_iff_exists.2 ⟨x, legible finite⟩⟩
  · exact trivial

/-- What is demanded of numerals, such that those of positions meet it. -/
structure Demand where
  ok : Numeral → Prop
  positions : ∀ n : UInt64, ok (.ofNat n.toNat)

def Demand.spelled : Demand := ⟨Numeral.Spelled, fun n => Numeral.spelled_ofNat n.toNat⟩

def Demand.passes : Demand := ⟨Numeral.Passes, Numeral.passes_ofNat⟩

section Leaves
variable {D : Demand}

@[simp]
theorem Span.leaves_toJson (s : Span) : s.toJson.Leaves D.ok := by
  simp [Span.toJson, leaves_object, leaves_str, Json.nat, Leaves, D.positions]

@[simp]
theorem Json.leaves_node {tag : String} {fields : List (String × Json)} {s : Span} :
    (Expr.toJson.node (tagged tag fields) s).Leaves D.ok ↔ ∀ f ∈ fields, f.2.Leaves D.ok := by
  simp [Expr.toJson.node, leaves_object]

theorem Json.leaves_ofBinary64 {ok : Numeral → Prop} {x : Binary64} {s : Span}
    (written : (Event.expression (.number x s)).Writes ok) : (ofBinary64 x).Leaves ok := by
  rw [ofBinary64]
  split
  · rename_i finite
    exact written finite
  · exact trivial

mutual

theorem Expr.leaves_toJson (e : Expr) (written : ∀ ev ∈ e.walk, ev.Writes D.ok) :
    e.toJson.Leaves D.ok := by
  cases e with simp only [Expr.walk, List.forall_mem_cons, List.forall_mem_append] at written
  | nil s => simp [Expr.toJson]
  | string v s => simp [Expr.toJson, leaves_str]
  | number x s =>
    have number := leaves_ofBinary64 written.1
    simp [Expr.toJson, number]
  | boolean v s => simp [Expr.toJson, Leaves]
  | identifier n s => simp [Expr.toJson, leaves_str]
  | member b n s =>
    simp [Expr.toJson, leaves_str, b.leaves_toJson written.2]
  | index b i s =>
    simp [Expr.toJson, b.leaves_toJson written.2.1, i.leaves_toJson written.2.2]
  | slice b l r s =>
    simp [Expr.toJson, b.leaves_toJson written.2.1.1, leaves_optionJson l written.2.1.2,
      leaves_optionJson r written.2.2]
  | call b as s =>
    simp [Expr.toJson, Leaves, b.leaves_toJson written.2.1, leaves_exprsJson as written.2.2]
  | unary o a s =>
    simp [Expr.toJson, leaves_str, a.leaves_toJson written.2]
  | binary l o r s =>
    simp [Expr.toJson, leaves_str, l.leaves_toJson written.2.1, r.leaves_toJson written.2.2]
  | map fs s =>
    simp [Expr.toJson, Leaves, leaves_fieldsJson fs written.2]
  | list is s =>
    simp [Expr.toJson, Leaves, leaves_exprsJson is written.2]
  | function f s =>
    simp [Expr.toJson, f.leaves_toJson written.2]
  | unknown k s => simp [Expr.toJson, leaves_str]

theorem leaves_optionJson (l : Option Expr) (written : ∀ ev ∈ walkOption l, ev.Writes D.ok) :
    (optionJson l).Leaves D.ok := by
  cases l with
  | none => exact trivial
  | some e => exact e.leaves_toJson written

theorem leaves_exprsJson (es : List Expr) (written : ∀ ev ∈ walkExprs es, ev.Writes D.ok) :
    LeavesItems D.ok (exprsJson es) := by
  cases es with
  | nil => exact trivial
  | cons e es =>
    simp only [walkExprs, List.forall_mem_append] at written
    exact ⟨e.leaves_toJson written.1, leaves_exprsJson es written.2⟩

theorem leaves_fieldsJson (fs : Fields) (written : ∀ ev ∈ walkFields fs, ev.Writes D.ok) :
    LeavesItems D.ok (fieldsJson fs) := by
  rcases fs with _ | ⟨⟨k, v⟩, fs⟩
  · exact trivial
  · simp only [walkFields, List.forall_mem_append] at written
    refine ⟨?_, leaves_fieldsJson fs written.2⟩
    simp [leaves_object, k.leaves_toJson written.1.1, v.leaves_toJson written.1.2]

theorem FunctionDecl.leaves_toJson (f : FunctionDecl) (written : ∀ ev ∈ f.walk, ev.Writes D.ok) :
    f.toJson.Leaves D.ok := by
  cases f with
  | mk ps b s =>
    simp only [FunctionDecl.walk, List.forall_mem_cons, List.forall_mem_append] at written
    simp [FunctionDecl.toJson, leaves_object, Leaves, leaves_paramsJson ps written.2.1.1,
      leaves_stmtsJson b written.2.1.2]

theorem leaves_paramsJson (ps : List Param) (written : ∀ ev ∈ walkParams ps, ev.Writes D.ok) :
    LeavesItems D.ok (paramsJson ps) := by
  cases ps with
  | nil => exact trivial
  | cons p ps =>
    simp only [walkParams, List.forall_mem_append] at written
    exact ⟨p.leaves_toJson written.1, leaves_paramsJson ps written.2⟩

theorem Param.leaves_toJson (p : Param) (written : ∀ ev ∈ p.walk, ev.Writes D.ok) :
    p.toJson.Leaves D.ok := by
  cases p with
  | plain n s => simp [Param.toJson, leaves_str]
  | withDefault n e s =>
    simp only [Param.walk, List.forall_mem_cons] at written
    simp [Param.toJson, leaves_str, e.leaves_toJson written.2]

theorem leaves_stmtsJson (ss : List Stmt) (written : ∀ ev ∈ walkStmts ss, ev.Writes D.ok) :
    LeavesItems D.ok (stmtsJson ss) := by
  cases ss with
  | nil => exact trivial
  | cons s ss =>
    simp only [walkStmts, List.forall_mem_append] at written
    exact ⟨s.leaves_toJson written.1, leaves_stmtsJson ss written.2⟩

theorem leaves_bodyJson (o : Option (List Stmt)) (written : ∀ ev ∈ walkBody o, ev.Writes D.ok) :
    (bodyJson o).Leaves D.ok := by
  cases o with
  | none => exact trivial
  | some b => exact leaves_stmtsJson b written

theorem leaves_clausesJson (cs : Clauses) (written : ∀ ev ∈ walkClauses cs, ev.Writes D.ok) :
    LeavesItems D.ok (clausesJson cs) := by
  rcases cs with _ | ⟨⟨c, b⟩, cs⟩
  · exact trivial
  · simp only [walkClauses, List.forall_mem_append] at written
    refine ⟨?_, leaves_clausesJson cs written.2⟩
    simp [leaves_object, Leaves, c.leaves_toJson written.1.1, leaves_stmtsJson b written.1.2]

theorem Stmt.leaves_toJson (s : Stmt) (written : ∀ ev ∈ s.walk, ev.Writes D.ok) :
    s.toJson.Leaves D.ok := by
  cases s with simp only [Stmt.walk, List.forall_mem_cons, List.forall_mem_append] at written
  | assign t i s =>
    simp [Stmt.toJson, t.leaves_toJson written.2.2.1, i.leaves_toJson written.2.2.2]
  | expr e =>
    simp [Stmt.toJson, e.leaves_toJson written.2]
  | cond cs o s =>
    simp [Stmt.toJson, Leaves, leaves_clausesJson cs written.2.1, leaves_bodyJson o written.2.2]
  | whileLoop c b s =>
    simp [Stmt.toJson, Leaves, c.leaves_toJson written.2.1, leaves_stmtsJson b written.2.2]
  | forLoop v i b s =>
    simp [Stmt.toJson, Leaves, v.leaves_toJson written.2.2.1.1, i.leaves_toJson written.2.2.1.2,
      leaves_stmtsJson b written.2.2.2]
  | ret a s =>
    simp [Stmt.toJson, leaves_optionJson a written.2]
  | exit s | next s => simp [Stmt.toJson]

end

end Leaves

namespace Json

mutual

/-- A value of readable leaves is readable as deep as it is nested. -/
theorem readable_of_leaves : ∀ {j : Json} {d : Nat}, j.Leaves Numeral.Passes → j.nesting ≤ d →
    j.readable d
  | .null, _, _, _ | .bool _, _, _, _ => rfl
  | .num _, _, leaf, _ => leaf.denotes
  | .string _, _, leaf, _ => leaf
  | .arr _, _ + 1, leaves, nested => readableItems_of_leaves leaves (Nat.le_of_succ_le_succ nested)
  | .obj _, _ + 1, leaves, nested => readableFields_of_leaves leaves (Nat.le_of_succ_le_succ nested)

theorem readableItems_of_leaves : ∀ {items : List Json} {d : Nat},
    LeavesItems Numeral.Passes items → nestingItems items ≤ d → readableItems d items
  | [], _, _, _ => rfl
  | _ :: _, _, ⟨first, others⟩, nested => by
    rw [nestingItems, max_le_iff] at nested
    rw [readableItems, Bool.and_eq_true]
    exact ⟨readable_of_leaves first nested.1, readableItems_of_leaves others nested.2⟩

theorem readableFields_of_leaves : ∀ {fields : List (Option String × Json)} {d : Nat},
    LeavesFields Numeral.Passes fields → nestingFields fields ≤ d → readableFields d fields
  | [], _, _, _ => rfl
  | (_, _) :: _, _, ⟨key, first, others⟩, nested => by
    rw [nestingFields, max_le_iff] at nested
    rw [readableFields, Bool.and_eq_true, Bool.and_eq_true]
    exact ⟨⟨key, readable_of_leaves first nested.1⟩, readableFields_of_leaves others nested.2⟩

end

end Json

/-! ### Chunks -/

theorem mapM_stmtOfJson? (ss : List Stmt) (legible : ∀ ev ∈ walkStmts ss, ev.Legible)
    (nested : nestingItems (stmtsJson ss) ≤ Chunk.maxNesting - 2) :
    (stmtsJson ss).mapM Chunk.stmtOfJson? = keep (allFinite (walkStmts ss)) ss := by
  induction ss with
  | nil => rfl
  | cons s ss ih =>
    simp only [walkStmts, List.forall_mem_append, stmtsJson, nestingItems,
      max_le_iff] at legible nested
    have passes := s.leaves_toJson (D := .passes) fun ev met => (legible.1 ev met).writes_passes
    have first : Chunk.stmtOfJson? s.toJson = keep (allFinite s.walk) s := by
      rw [Chunk.stmtOfJson?, if_pos (readable_of_leaves passes nested.1)]
      exact s.ofJson?_toJson false legible.1 (nested.1.trans (Nat.sub_le _ _))
    simp [stmtsJson, first, ih legible.2 nested.2, walkStmts]

theorem Chunk.ofJson?_eq (c : Chunk) :
    Chunk.ofJson? c.toJson =
    ((stmtsJson c.body).mapM stmtOfJson?).bind fun body => some ⟨body, c.span⟩ := by
  change ((stmtsJson c.body).mapM stmtOfJson?).bind (fun body => (Span.ofJson? c.span.toJson).bind
    fun span =>
    some (Chunk.mk body span)) = _
  simp only [Span.ofJson?_toJson, Option.bind_some]

theorem Chunk.ofJson?_toJson (c : Chunk) (legible : ∀ ev ∈ c.walk, ev.Legible)
    (nested : c.toJson.nesting ≤ maxNesting) :
    Chunk.ofJson? c.toJson = keep (allFinite c.walk) c := by
  have body : nestingItems (stmtsJson c.body) ≤ maxNesting - 2 := by
    have inside : (Json.arr (stmtsJson c.body)).nesting ≤ 126 :=
      nesting_field nested (f := ("body", _)) (by simp)
    rw [nesting] at inside
    exact Nat.le_of_succ_le_succ inside
  simp [Chunk.ofJson?_eq, mapM_stmtOfJson? c.body legible body, Chunk.walk]

theorem Chunk.leaves_toJson (c : Chunk) : c.toJson.Leaves Numeral.Spelled := by
  have body := leaves_stmtsJson (D := .spelled) c.body fun ev _ => ev.writes_spelled
  have span := c.span.leaves_toJson (D := .spelled)
  exact leaves_object.2 (by simpa [Leaves] using ⟨body, span⟩)

/-- What reading the text of a chunk comes to: only the check of block ids is left. -/
theorem Chunk.parse?_text (c : Chunk) (legible : ∀ ev ∈ c.walk, ev.Legible)
    (nested : c.toJson.nesting ≤ maxNesting) :
    (Json.parse? c.text).bind ofJson? = keep (allFinite c.walk) c := by
  rw [Chunk.text, Json.parse?_text c.leaves_toJson, Option.bind_some,
    c.ofJson?_toJson legible nested]

section

variable {α : Type} [DecidableEq α]

theorem firstRepeat?_eq_none_iff {seen l : List α} :
    firstRepeat? seen l = none ↔ l.Nodup ∧ ∀ a ∈ l, a ∉ seen := by
  induction l generalizing seen with
  | nil => simp [firstRepeat?]
  | cons a l ih =>
    rw [firstRepeat?]
    by_cases repeated : a ∈ seen
    · simp [repeated]
    · rw [if_neg repeated, ih]
      grind

theorem firstRepeat?_eq_some_iff {seen l : List α} {a : α} :
    firstRepeat? seen l = some a ↔ ∃ before after, l = before ++ a :: after ∧ before.Nodup ∧
      (∀ b ∈ before, b ∉ seen) ∧ (a ∈ seen ∨ a ∈ before) := by
  induction l generalizing seen with
  | nil => simp [firstRepeat?]
  | cons b l ih =>
    rw [firstRepeat?]
    by_cases repeated : b ∈ seen
    · rw [if_pos repeated, Option.some.injEq]
      constructor
      · rintro rfl
        exact ⟨[], l, rfl, List.nodup_nil, by simp, .inl repeated⟩
      · rintro ⟨before, after, split, -, fresh, -⟩
        cases before with
        | nil => exact (List.cons.inj split).1
        | cons c before =>
          rw [(List.cons.inj split).1] at repeated
          exact absurd repeated (fresh c List.mem_cons_self)
    · rw [if_neg repeated, ih]
      constructor
      · rintro ⟨before, after, rfl, distinct, fresh, seen_before⟩
        refine ⟨b :: before, after, rfl, ?_, ?_, ?_⟩ <;> grind
      · rintro ⟨before, after, split, distinct, fresh, seen_before⟩
        cases before with
        | nil => grind
        | cons c before =>
          obtain ⟨rfl, rfl⟩ := List.cons.inj split
          refine ⟨before, after, rfl, ?_, ?_, ?_⟩ <;> grind

end

theorem allFinite_iff {events : List Event} :
    allFinite events ↔ ∀ x s, Event.expression (.number x s) ∈ events → x.isFinite := by
  rw [allFinite, List.all_eq_true]
  constructor
  · intro finite x s met
    exact finite _ met
  · intro finite e met
    unfold Event.isFinite
    split
    · exact finite _ _ met
    · rfl

/-- Reading the text of a chunk, before the outcomes are told apart. -/
theorem Chunk.ofText_text_eq (c : Chunk) (legible : ∀ ev ∈ c.walk, ev.Legible)
    (nested : c.toJson.nesting ≤ maxNesting) :
    ofText c.text =
      if allFinite c.walk then
        match firstRepeat? [] c.blockIds with
        | some id => .error (.duplicateBlockId id)
        | none => .ok c
      else .error .malformed := by
  rw [ofText, c.parse?_text legible nested]
  cases allFinite c.walk <;> rfl

/-- **Hand-over.** The text of a chunk is malformed exactly when one of its numbers is not finite;
otherwise the first block id that repeats an earlier one is reported; otherwise the chunk itself
comes back. -/
theorem Chunk.ofText_text (c : Chunk) (nested : c.toJson.nesting ≤ maxNesting)
    (legible : ∀ x s, Event.expression (.number x s) ∈ c.walk → x.isFinite →
      (Json.numberFormat.numeral x).scaled? = some x) :
    (ofText c.text = .error .malformed ↔ ∃ x s, Event.expression (.number x s) ∈ c.walk ∧
      ¬ x.isFinite) ∧ (∀ id, ofText c.text = .error (.duplicateBlockId id) ↔
        (∀ x s, Event.expression (.number x s) ∈ c.walk → x.isFinite) ∧
          ∃ before after, c.blockIds = before ++ id :: after ∧ before.Nodup ∧ id ∈ before) ∧
      ∀ d, ofText c.text = .ok d ↔
        (∀ x s, Event.expression (.number x s) ∈ c.walk → x.isFinite) ∧ c.blockIds.Nodup ∧
          d = c := by
  have events : ∀ ev ∈ c.walk, ev.Legible := by
    intro ev met
    unfold Event.Legible
    split
    · exact legible _ _ met
    · exact trivial
  have some_infinite : (∃ x s, Event.expression (.number x s) ∈ c.walk ∧ ¬ x.isFinite) ↔
      ¬ allFinite c.walk := by
    rw [allFinite_iff]
    push Not
    rfl
  have repeats : ∀ id, firstRepeat? [] c.blockIds = some id ↔
      ∃ before after, c.blockIds = before ++ id :: after ∧ before.Nodup ∧ id ∈ before := by
    simp [firstRepeat?_eq_some_iff]
  have distinct : firstRepeat? [] c.blockIds = none ↔ c.blockIds.Nodup := by
    simp [firstRepeat?_eq_none_iff]
  simp only [some_infinite, ← allFinite_iff, ← repeats, ← distinct, c.ofText_text_eq events nested]
  cases finite : allFinite c.walk with
  | false => simp
  | true =>
    cases first : firstRepeat? [] c.blockIds with
    | none => simp [eq_comm]
    | some id => simp

/-- A function with a parameter that defaults to `0.1`; in its body a key has characters that are
escaped. -/
def Chunk.nestedFunction (chunkId functionId : String) : Chunk :=
  let span (id : String) : Span := ⟨0, 18446744073709551615, 7, id⟩
  let default : Expr := .number ⟨0x3fb999999999999a⟩ (span "d")
  let key : Expr := .string "a\"\\\n\u0001é" (span "k")
  let body : Stmt := .ret (some (.slice (.index (.identifier "n" (span "n")) key (span "i")) none
    (some (.unary .negate (.boolean true (span "b")) (span "u"))) (span "s"))) (span "r")
  { body := [.assign (.identifier "f" (span "f"))
      (.function (.mk [.withDefault "n" default (span "p")] [body] (span functionId)) (span "e"))
      (span "a")]
    span := span chunkId }

theorem Chunk.ofText_text_nestedFunction :
    ofText (nestedFunction "main" "inner").text = .ok (nestedFunction "main" "inner") ∧
      ofText (nestedFunction "main" "main").text = .error (.duplicateBlockId "main") := by
  have legible : ∀ inner x s, Event.expression (.number x s) ∈ (nestedFunction "main" inner).walk →
      x.isFinite ∧ (Json.numberFormat.numeral x).scaled? = some x := by
    intro inner x s met
    simp [nestedFunction, Chunk.walk, walkStmts, Stmt.walk, Expr.walk, FunctionDecl.walk,
      walkParams, Param.walk, walkOption] at met
    obtain ⟨rfl, -⟩ := met
    decide +kernel
  constructor
  · apply ((ofText_text _ (by decide) fun x s met _ => (legible _ x s met).2).2.2 _).2
    exact ⟨fun x s met => (legible _ x s met).1, by decide, rfl⟩
  · apply ((ofText_text _ (by decide) fun x s met _ => (legible _ x s met).2).2.1 _).2
    exact ⟨fun x s met => (legible _ x s met).1, ["main"], [], by decide⟩

end ScriptInference
