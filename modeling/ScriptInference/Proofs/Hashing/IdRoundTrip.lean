import ScriptInference.Proofs.Hashing.IdText

/-!
# Plain ids read back

The id of a plain expression is read back as the normal form of the expression. The induction
follows the tree. What is proved of an expression is what reading does when more accesses may
follow: its id is taken off the front, and the reader goes on with the accesses from there.
-/

namespace ScriptInference

open IdReader

namespace IdReader

/-! ### Texts and what they are read as -/

section

variable {α : Type} {follow : List Char → Prop} {read : Nat → List Char → Option (α × List Char)}

/-- The text is taken off the front and read as the value. Fuel for twice the length is enough. -/
structure ReadsAs (follow : List Char → Prop) (read : Nat → List Char →
    Option (α × List Char)) (text : String) (a : α) : Prop where
  starts : Starts text.toList
  takes : ∀ fuel, 2 * text.toList.length + 1 < fuel → Takes follow (read fuel) text.toList a

theorem takes_of_readsAs {texts : List String} {as : List α}
    (items : List.Forall₂ (ReadsAs follow read) texts as) {fuel : Nat}
    (enough : ∀ t ∈ texts, 2 * t.toList.length + 1 < fuel) :
    List.Forall₂ (Takes follow (read fuel)) (texts.map String.toList) as := by
  induction items with
  | nil => exact .nil
  | cons first _ ih =>
    rw [List.forall_mem_cons] at enough
    exact .cons (first.takes fuel enough.1) (ih enough.2)

theorem starts_of_readsAs {texts : List String} {as : List α}
    (items : List.Forall₂ (ReadsAs follow read) texts as) :
    ∀ text ∈ texts.map String.toList, Starts text := by
  induction items with
  | nil => simp
  | cons first _ ih => exact List.forall_mem_cons.2 ⟨first.starts, ih⟩

variable {texts : List String} {as : List α} {fuel : Nat}

/-- Fuel for the joined texts is enough for each of them, and for their number. -/
theorem fits_of_joined {separator : Char}
    (enough : 2 * (joined separator texts).length + 1 < fuel) :
    (∀ t ∈ texts, 2 * t.toList.length + 1 < fuel) ∧ (texts.map String.toList).length ≤ fuel := by
  constructor
  · intro t h
    have := length_le_joined separator h
    omega
  · have := length_le_length_joined separator texts
    rw [List.length_map]
    omega

theorem readList_joined (separator close : Char)
    (items : List.Forall₂ (ReadsAs follow read) texts as)
    (separates : ∀ cs, follow (separator :: cs)) (ends : ∀ cs, follow (close :: cs))
    (closing : closes close) (different : close ≠ separator)
    (enough : 2 * (joined separator texts).length + 1 < fuel) (rest : List Char) :
    readList (read fuel) separator close fuel (joined separator texts ++ close :: rest) =
      some (as, rest) := by
  obtain ⟨each, count⟩ := fits_of_joined enough
  exact readList_append (takes_of_readsAs items each) (starts_of_readsAs items) separates ends
    closing different count rest

theorem readBody_joined {stmts : List Stmt}
    (items : List.Forall₂ (ReadsAs StmtEnds readStmt) texts stmts)
    (enough : 2 * (joined ';' texts).length + 1 < fuel) :
    Takes BlockEnds (readBody (readStmt fuel) fuel) (joined ';' texts) stmts := by
  obtain ⟨each, count⟩ := fits_of_joined enough
  exact readBody_append (takes_of_readsAs items each) (starts_of_readsAs items) count

end

end IdReader

/-! ### Expressions, with the accesses that may follow them -/

namespace Expr

/-- An access may follow, unless a sign or a word would then apply to it; and a point after a number
is not followed by a digit. -/
structure Follows (e : Expr) (rest : List Char) : Prop where
  delimited : Delimited rest
  closed : e.isUnary → Closed rest
  noFraction : e.isNumber → NoFraction rest

theorem follows_of_closed (e : Expr) {rest : List Char} (h : Closed rest) : e.Follows rest where
  delimited := h.delimited
  closed _ := h
  noFraction _ cs here := absurd (h '.' cs here) (by decide)

theorem follows_of_delimited {e : Expr} (bare : e.isUnary = false) {rest : List Char}
    (h : Delimited rest) (point : e.isNumber → NoFraction rest) : e.Follows rest where
  delimited := h
  closed unary := by simp [bare] at unary
  noFraction := point

/-- The id is taken off the front, and the reader goes on with the accesses that follow it. What it
costs is bounded by the length of the id. -/
def Reads (e : Expr) : Prop :=
  ∀ fuel rest, 2 * e.id.toList.length < fuel → e.Follows rest →
    ∃ n, fuel ≤ n + e.id.toList.length ∧
    readExpr fuel (e.id.toList ++ rest) = readHops n e.normal rest

end Expr

theorem readHops_closed {rest : List Char} (h : Closed rest) {fuel : Nat} (positive : 0 < fuel)
    (e : Expr) : readHops fuel e rest = some (e, rest) := by
  obtain ⟨fuel, rfl⟩ : ∃ n, fuel = n + 1 := ⟨_, (Nat.succ_pred_eq_of_pos positive).symm⟩
  rw [readHops]
  all_goals
    rintro cs rfl
    exact absurd (h _ _ rfl) (by decide)

namespace Expr.Reads

variable {e b i l r : Expr}

theorem takes (h : e.Reads) {fuel : Nat} (enough : 2 * e.id.toList.length < fuel) :
    Takes Closed (readExpr fuel) e.id.toList e.normal := by
  intro rest closed
  obtain ⟨n, bound, read⟩ := h fuel rest enough (e.follows_of_closed closed)
  rw [read, readHops_closed closed (by omega)]

theorem readsAs (h : e.Reads) (plain : e.isPlain) : ReadsAs Closed readExpr e.id e.normal where
  starts := (e.heads_id plain).starts
  takes _ enough := h.takes (Nat.lt_of_succ_lt enough)

/-! #### Bases -/

/-- An expression that is no access is read as a base. -/
theorem of_base (start : ∃ c cs, e.id.toList = c :: cs)
    (dispatch : ∀ fuel rest, Delimited rest → readExpr (fuel + 1) (e.id.toList ++ rest) =
      (readBase fuel (e.id.toList ++ rest)).bind fun r => readHops fuel r.1 r.2)
    (base : ∀ fuel rest, 2 * e.id.toList.length ≤ fuel + 1 → e.Follows rest →
      readBase (fuel + 1) (e.id.toList ++ rest) = some (e.normal, rest)) : e.Reads := by
  intro fuel rest enough follows
  obtain ⟨c, cs, shape⟩ := start
  have positive : 0 < e.id.toList.length := by simp [shape]
  obtain ⟨fuel, rfl⟩ : ∃ n, fuel = n + 2 := ⟨fuel - 2, by omega⟩
  refine ⟨fuel + 1, by omega, ?_⟩
  rw [dispatch _ _ follows.delimited, base fuel rest (by omega) follows]
  rfl

/-- A base that starts with a sign of its own. -/
theorem of_opens {c : Char} {cs : List Char} (shape : e.id.toList = c :: cs) (h : opens c)
    (sign : c ≠ '@' ∧ c ≠ '-')
    (base : ∀ fuel rest, 2 * (c :: cs).length ≤ fuel + 1 → e.Follows rest →
      readBase (fuel + 1) (c :: (cs ++ rest)) = some (e.normal, rest)) : e.Reads := by
  apply of_base ⟨c, cs, shape⟩
  · intro fuel rest _
    rw [shape]
    exact readExpr_of_opens h sign fuel _
  · rw [shape]
    exact base

/-- A base that starts with a word. -/
theorem of_word {w : String} {cs : List Char} (shape : e.id.toList = w.toList ++ cs)
    (word : isWord w) (prefixed : w ≠ "new" ∧ w ≠ "not") (ends : Delimited cs)
    (base : ∀ fuel rest, 2 * (w.toList ++ cs).length ≤ fuel + 1 → e.Follows rest →
      readWord (readFunction (readExpr fuel) (readStmt fuel) fuel) w (cs ++ rest) =
        some (e.normal, rest)) : e.Reads := by
  have start : ∃ c ds, e.id.toList = c :: ds := by
    simp only [isWord, Bool.and_eq_true] at word
    obtain ⟨c, ds, chars⟩ := exists_cons_of_isName word.1
    exact ⟨c, ds ++ cs, by rw [shape, chars, List.cons_append]⟩
  apply of_base start
  · intro fuel rest delimited
    rw [shape, List.append_assoc]
    exact readExpr_of_word word (ends.append delimited) prefixed fuel
  · intro fuel rest enough follows
    rw [shape] at enough ⊢
    rw [List.append_assoc, readBase_of_word word (ends.append follows.delimited)]
    exact base fuel rest enough follows

/-- A word that stands alone. -/
theorem of_lone_word {w : String} (shape : e.id = w) (word : isWord w)
    (prefixed : w ≠ "new" ∧ w ≠ "not")
    (read : ∀ function rest, readWord function w rest = some (e.normal, rest)) : e.Reads := by
  have alone : e.id.toList = w.toList ++ [] := by rw [shape, List.append_nil]
  apply of_word alone word prefixed nofun
  exact fun fuel rest _ _ => read _ rest

variable {n : String} {s : Span}

theorem string (v : String) : (Expr.string v s).Reads := by
  apply of_opens (toList_id_string v) (by decide) (by decide)
  intro fuel rest _ _
  rw [readBase, List.append_assoc, List.singleton_append, Json.readString_quoteChars]
  rfl

theorem number {x : Binary64} (finite : x.isFinite) (positive : x.negative = false) :
    (Expr.number x s).Reads := by
  obtain ⟨d, cs, shape⟩ := Binary64.plainText_eq_cons finite positive
  have sign : ∀ d : Digit, d.toChar ≠ '@' ∧ d.toChar ≠ '-' := by decide
  apply of_opens (e := .number x s) shape (opens_digit d) (sign d)
  intro fuel rest _ follows
  have read := readNumber_plain finite positive follows.delimited (follows.noFraction rfl)
  rw [← Binary64.toList_plainText finite, shape, List.cons_append] at read
  rw [readBase_digit, read]
  rfl

theorem identifier (h : isIdentifier n) : (Expr.identifier n s).Reads := by
  simp only [isIdentifier, Bool.and_eq_true, Bool.not_eq_true'] at h
  have other : ∀ w, keywords.contains w → n ≠ w := by
    rintro w keyword rfl
    rw [keyword] at h
    exact absurd h.2 (by decide)
  apply of_lone_word (w := n) rfl h.1 ⟨other "new" (by decide), other "not" (by decide)⟩
  exact readWord_of_not_mem h.2

theorem binary (left : l.Reads) (o : BinaryOp) (right : r.Reads) : (l.binary o r s).Reads := by
  apply of_opens (toList_id_binary o) (by decide) (by decide)
  intro fuel rest enough _
  simp only [List.length_append, List.length_cons] at enough
  rw [readBase]
  simp only [List.append_assoc, List.cons_append, List.nil_append]
  exact readBinary_append (left.takes (by omega)) (right.takes (by omega)) o rest

theorem list {is : List Expr}
    (items : List.Forall₂ (ReadsAs Closed readExpr) (idExprs is) (normalExprs is)) :
    (Expr.list is s).Reads := by
  apply of_opens (toList_id_list is) (by decide) (by decide)
  intro fuel rest enough _
  simp only [List.length_append, List.length_cons] at enough
  rw [readBase, List.append_assoc, List.singleton_append,
    readList_joined ',' ']' items (closed_cons (by decide))
    (closed_cons (by decide)) (by decide) (by decide) (by omega)]
  rfl

theorem map {fs : Fields}
    (items : List.Forall₂ (ReadsAs Closed fun fuel => readField (readExpr fuel)) (idFields fs)
      (normalFields fs)) : (Expr.map fs s).Reads := by
  apply of_opens (toList_id_map fs) (by decide) (by decide)
  intro fuel rest enough _
  simp only [List.length_append, List.length_cons] at enough
  rw [readBase, List.append_assoc, List.singleton_append,
    readList_joined ',' '\x7d' items (closed_cons (by decide))
    (closed_cons (by decide)) (by decide) (by decide) (by omega)]
  rfl

theorem unknown {k : String} (h : k.toList.all (· ≠ '>')) : (Expr.unknown k s).Reads := by
  apply of_opens (toList_id_unknown k) (by decide) (by decide)
  intro fuel rest _ _
  simp only [List.all_eq_true] at h
  rw [readBase, List.append_assoc, List.takeWhile_append_of_pos h, List.dropWhile_append_of_pos h]
  simp [Expr.normal]

theorem function {ps : List Param} {body : List Stmt} {t : Span}
    (parameters : List.Forall₂ (ReadsAs ParamEnds fun fuel => readParam (readExpr fuel))
      (idParams ps) (normalParams ps))
    (stmts : List.Forall₂ (ReadsAs StmtEnds readStmt) (idStmts body) (normalStmts body)) :
    (Expr.function (.mk ps body t) s).Reads := by
  apply of_word (toList_id_function ps body t) (by decide) (by decide)
    (delimited_cons (by decide) _)
  intro fuel rest enough _
  simp only [List.length_append, List.length_cons] at enough
  have first_fits : 2 * (joined ',' (idParams ps)).length + 1 < fuel := by omega
  have second_fits : 2 * (joined ';' (idStmts body)).length + 1 < fuel := by omega
  have first := readList_joined ',' ')' parameters (fun cs => ⟨cs, .inl rfl⟩)
    (fun cs => ⟨cs, .inr rfl⟩) (by decide) (by decide) first_fits
  have second :=
    readList_joined ';' '\x7d' stmts stmtEnds_separator stmtEnds_brace (by decide) (by decide)
    second_fits
  have text : '(' :: (joined ',' (idParams ps) ++ ')' :: '\x7b' ::
      (joined ';' (idStmts body) ++ ['\x7d'])) ++ rest = "(".toList ++ (joined ',' (idParams ps) ++
        ')' :: ("\x7b".toList ++ (joined ';' (idStmts body) ++ '\x7d' :: rest))) := by simp
  change readFunction _ _ _ _ = _
  rw [text]
  simp only [readFunction, expect_append, first, second, Option.bind_eq_bind, Option.bind_some]
  rfl

/-! #### Signs and words in front -/

theorem readExpr_unary (o : UnaryOp) (fuel : Nat) (cs : List Char) :
    readExpr (fuel + 1) (o.symbol.toList ++ cs) = (readExpr fuel cs).map fun r =>
      (.unary o r.1 default, r.2) := by
  cases o with
  | reference => exact readExpr.eq_2 fuel cs
  | negate => exact readExpr.eq_3 fuel cs
  | new =>
    have word : leadingWord ("new ".toList ++ cs) = "new" :=
      leadingWord_append (w := "new") (by decide) (delimited_cons (c := ' ') (by decide) cs)
    change readExpr (fuel + 1) ("new ".toList ++ cs) = _
    rw [readExpr, if_pos word, expect_append, Option.bind_some]
    all_goals exact append_ne_of_isWord (w := "new") (by decide) (by decide) (' ' :: cs)
  | not =>
    have word : leadingWord ("not ".toList ++ cs) = "not" :=
      leadingWord_append (w := "not") (by decide) (delimited_cons (c := ' ') (by decide) cs)
    change readExpr (fuel + 1) ("not ".toList ++ cs) = _
    rw [readExpr, word, if_neg (by decide), if_pos rfl, expect_append, Option.bind_some]
    all_goals exact append_ne_of_isWord (w := "not") (by decide) (by decide) (' ' :: cs)

/-- Nothing but the end of the expression follows a sign or a word and what it applies to. -/
theorem unary (h : e.Reads) (o : UnaryOp) : (e.unary o s).Reads := by
  intro fuel rest enough follows
  have closed : Closed rest := follows.closed rfl
  have sign : 0 < o.symbol.toList.length := by cases o <;> decide
  rw [toList_id_unary, List.length_append] at enough ⊢
  obtain ⟨fuel, rfl⟩ : ∃ n, fuel = n + 1 := ⟨fuel - 1, by omega⟩
  refine ⟨fuel + 1, by omega, ?_⟩
  rw [List.append_assoc, readExpr_unary, h.takes (by omega) rest closed,
    readHops_closed closed (by omega)]
  rfl

/-! #### Accesses -/

/-- An access is read as one more hop behind its base. -/
theorem of_hop (h : b.Reads) {c : Char} {cs : List Char}
    (shape : e.id.toList = b.id.toList ++ c :: cs)
    (follows : ∀ rest, e.Follows rest → b.Follows (c :: (cs ++ rest)))
    (hop : ∀ n rest, 2 * (c :: cs).length ≤ n → e.Follows rest →
      readHops (n + 1) b.normal (c :: (cs ++ rest)) = readHops n e.normal rest) : e.Reads := by
  intro fuel rest enough behind
  rw [shape] at enough ⊢
  simp only [List.length_append, List.length_cons] at enough ⊢
  obtain ⟨m, bound, read⟩ := h fuel _ (by omega) (follows rest behind)
  obtain ⟨m, rfl⟩ : ∃ k, m = k + 1 := ⟨m - 1, by omega⟩
  refine ⟨m, by omega, ?_⟩
  rw [List.append_assoc, List.cons_append, read]
  exact hop m rest (by rw [List.length_cons]; omega) behind

theorem member (h : b.Reads) (bare : b.isUnary = false) (other : b.isLocals = false)
    (name : isName n) (digit : b.isNumber → Numeral.NoDigit n.toList) : (b.member n s).Reads := by
  apply h.of_hop (toList_id_member other)
  · intro rest _
    apply follows_of_delimited bare (delimited_cons (by decide) _)
    intro number cs here
    rw [← (List.cons.inj here).2]
    exact noDigit_append name (digit number) rest
  · intro m rest _ follows
    rw [readHops, spanName_append name follows.delimited]
    rw [Expr.normal, normalMember, b.isLocals_normal, other, if_neg (by simp)]

/-- No digit follows the bracket of an access. -/
theorem follows_bracket (bare : b.isUnary = false) {c : Char} (h : endsName c) (point : c ≠ '.')
    (cs : List Char) : b.Follows (c :: cs) := by
  apply follows_of_delimited bare (delimited_cons h _)
  intro _ _ here
  exact absurd (List.cons.inj here).1 point

theorem index (h : b.Reads) (bare : b.isUnary = false) (key : ReadsAs Closed readExpr i.id i.normal)
    (other : i.stringLiteral? = none) : (b.index i s).Reads := by
  apply h.of_hop (toList_id_index other)
  · exact fun rest _ => follows_bracket bare (by decide) (by decide) _
  · intro m rest enough _
    simp only [List.length_append, List.length_cons] at enough
    rw [readHops, List.append_assoc, List.singleton_append,
      readKey_index key.starts (key.takes m (by omega)), Expr.normal, other]
    rfl

theorem slice {o p : Option Expr} (h : b.Reads) (bare : b.isUnary = false)
    (left : ∀ fuel, 2 * (idOption o).toList.length < fuel →
      TakesOption (readExpr fuel) (idOption o).toList (normalOption o))
    (right : ∀ fuel, 2 * (idOption p).toList.length < fuel →
      TakesOption (readExpr fuel) (idOption p).toList (normalOption p)) :
    (b.slice o p s).Reads := by
  apply h.of_hop (toList_id_slice o p)
  · exact fun rest _ => follows_bracket bare (by decide) (by decide) _
  · intro m rest enough _
    simp only [List.length_append, List.length_cons] at enough
    rw [readHops]
    simp only [List.append_assoc, List.cons_append, List.nil_append]
    rw [readKey_slice (left m (by omega)) (right m (by omega))]
    rfl

theorem call {as : List Expr} (h : b.Reads) (bare : b.isUnary = false)
    (arguments : List.Forall₂ (ReadsAs Closed readExpr) (idExprs as) (normalExprs as)) :
    (b.call as s).Reads := by
  apply h.of_hop (toList_id_call as)
  · exact fun rest _ => follows_bracket bare (by decide) (by decide) _
  · intro m rest enough _
    simp only [List.length_append, List.length_cons] at enough
    rw [readHops, List.append_assoc, List.singleton_append, readList_joined ',' ')' arguments
      (closed_cons (by decide)) (closed_cons (by decide)) (by decide) (by decide) (by omega)]
    rfl

end Expr.Reads

/-! ### Statements -/

namespace Stmt

variable {t i c v : Expr} {b : List Stmt} {p : Span}

theorem readStmt_of_heads {text rest : List Char} (heads : Heads text) (ends : Delimited rest)
    (fuel : Nat) :
    readStmt (fuel + 1) (text ++ rest) = readAssignment (readExpr fuel) (text ++ rest) := by
  have other : ∀ w, leadingWord (text ++ rest) = w → w ∉ blockWords := by
    rintro w rfl
    exact heads.leadingWord_not_mem ends
  rw [readStmt]
  split
  any_goals
    rename_i word
    exact absurd (by decide) (other _ word)
  rfl

/-- The clauses of a conditional can be read. -/
inductive ClausesRead : Clauses → Prop
  | nil : ClausesRead []
  | cons {c b cs} : ReadsAs Closed readExpr c.id c.normal →
      List.Forall₂ (ReadsAs StmtEnds readStmt) (idStmts b) (normalStmts b) → ClausesRead cs →
      ClausesRead ((c, b) :: cs)

/-- The alternative of a conditional can be read, and is not taken for another clause. -/
def ElseReads (o : Option (List Stmt)) : Prop :=
  ∀ b ∈ o, List.Forall₂ (ReadsAs StmtEnds readStmt) (idStmts b) (normalStmts b) ∧
    ∀ rest, leadingWord (joined ';' (idStmts b) ++ (" end".toList ++ rest)) ≠ "if"

theorem readClauses_condId {o : Option (List Stmt)} (otherwise : ElseReads o) {cs : Clauses}
    (clauses : ClausesRead cs) (some_clause : cs ≠ []) {fuel m : Nat}
    (enough : 2 * (condId (idClauses cs) (idElse o)).toList.length ≤ fuel)
    (count : (condId (idClauses cs) (idElse o)).toList.length < m) :
    Takes StmtEnds (readClauses (readExpr fuel) (readStmt fuel) fuel m)
      (condId (idClauses cs) (idElse o)).toList (normalClauses cs, normalBody o) := by
  induction clauses generalizing m with
  | nil => exact absurd rfl some_clause
  | @cons c b cs condition body others ih =>
    intro rest ends
    obtain ⟨m, rfl⟩ : ∃ n, m = n + 1 := ⟨m - 1, by omega⟩
    have word_length : "if ".toList.length = 3 := by decide
    cases others with
    | nil =>
      cases o with
      | none =>
        simp only [idClauses, idElse, toList_condId_end, toList_clause, List.append_assoc,
          List.length_append]
          at enough ⊢
        exact readClauses_end (condition.takes fuel (by omega)) (readBody_joined body (by omega))
          ends.closed.delimited
      | some d =>
        obtain ⟨stmts, lone⟩ := otherwise d rfl
        simp only [idClauses, idElse, toList_condId_else, toList_clause, List.append_assoc,
          List.length_append, toList_intercalate_semicolon] at enough ⊢
        exact readClauses_else (condition.takes fuel (by omega)) (readBody_joined body (by omega))
          (readBody_joined stmts (by omega)) (lone rest) ends.closed.delimited
    | @cons c' b' cs condition' body' others =>
      obtain ⟨text, keyword⟩ := toList_condId_if c' b' cs (idElse o)
      have word : leadingWord ((condId (idClauses ((c', b') :: cs)) (idElse o)).toList ++ rest) =
          "if" := by
        rw [keyword, List.append_assoc]
        exact leadingWord_append (by decide) (delimited_cons (by decide) _)
      rw [idClauses, idClauses, toList_condId_more, ← idClauses] at enough count ⊢
      simp only [toList_clause, List.append_assoc, List.length_append] at enough count ⊢
      exact readClauses_more (condition.takes fuel (by omega)) (readBody_joined body (by omega))
        word (ih (List.cons_ne_nil _ _) (by omega) (by omega) rest ends)

variable {o : Option (List Stmt)} {cs : Clauses}

theorem readsAs_of_takes {s : Stmt} (plain : s.isPlain)
    (takes : ∀ fuel, 2 * s.id.toList.length < fuel →
      Takes StmtEnds (readStmt (fuel + 1)) s.id.toList s.normal) :
    ReadsAs StmtEnds readStmt s.id s.normal where
  starts := starts_id plain
  takes fuel enough := by
    obtain ⟨fuel, rfl⟩ : ∃ n, fuel = n + 1 := ⟨fuel - 1, by omega⟩
    exact takes fuel (by omega)

theorem readsAs_assign (plain : (assign t i p).isPlain) (target : t.Reads) (value : i.Reads) :
    ReadsAs StmtEnds readStmt (assign t i p).id (assign t i p).normal := by
  apply readsAs_of_takes plain
  intro fuel enough rest ends
  rw [readStmt_of_heads (heads_id _ plain rfl) ends.closed.delimited]
  rw [toList_id_assign] at enough ⊢
  simp only [List.length_append, List.length_cons] at enough
  exact readAssignment_append (target.takes (by omega)) (value.takes (by omega)) rest ends

theorem readsAs_expr {e : Expr} (plain : (expr e).isPlain) (h : e.Reads) :
    ReadsAs StmtEnds readStmt (expr e).id (expr e).normal := by
  apply readsAs_of_takes plain
  intro fuel enough rest ends
  rw [readStmt_of_heads (heads_id _ plain rfl) ends.closed.delimited]
  exact readAssignment_expr (h.takes enough) rest ends

theorem readsAs_cond (plain : (cond cs o p).isPlain) (clauses : ClausesRead cs)
    (otherwise : ElseReads o) :
    ReadsAs StmtEnds readStmt (cond cs o p).id (cond cs o p).normal := by
  have some_clause : cs ≠ [] := by
    rintro rfl
    simp [Stmt.isPlain] at plain
  apply readsAs_of_takes plain
  intro fuel enough rest ends
  rw [readStmt, leadingWord_id plain rfl ends.closed.delimited]
  rw [Stmt.id] at enough ⊢
  change (readClauses (readExpr fuel) (readStmt fuel) fuel fuel _).map _ = _
  rw [readClauses_condId otherwise clauses some_clause (by omega) (by omega) rest ends]
  rfl

theorem readsAs_whileLoop (plain : (whileLoop c b p).isPlain) (condition : c.Reads)
    (body : List.Forall₂ (ReadsAs StmtEnds readStmt) (idStmts b) (normalStmts b)) :
    ReadsAs StmtEnds readStmt (whileLoop c b p).id (whileLoop c b p).normal := by
  apply readsAs_of_takes plain
  intro fuel enough rest ends
  rw [readStmt, leadingWord_id plain rfl ends.closed.delimited]
  rw [toList_id_whileLoop] at enough ⊢
  simp only [List.length_append, List.length_cons] at enough
  exact readWhile_append (condition.takes (by omega)) (readBody_joined body (by omega)) rest ends

theorem readsAs_forLoop (plain : (forLoop v i b p).isPlain) (element : v.Reads) (iterator : i.Reads)
    (body : List.Forall₂ (ReadsAs StmtEnds readStmt) (idStmts b) (normalStmts b)) :
    ReadsAs StmtEnds readStmt (forLoop v i b p).id (forLoop v i b p).normal := by
  apply readsAs_of_takes plain
  intro fuel enough rest ends
  rw [readStmt, leadingWord_id plain rfl ends.closed.delimited]
  rw [toList_id_forLoop] at enough ⊢
  simp only [List.length_append, List.length_cons] at enough
  exact readFor_append (element.takes (by omega)) (iterator.takes (by omega))
    (readBody_joined body (by omega)) rest ends

theorem readsAs_ret_none : ReadsAs StmtEnds readStmt (ret none p).id (ret none p).normal := by
  apply readsAs_of_takes rfl
  intro fuel _ rest ends
  rw [readStmt, leadingWord_id rfl rfl ends.closed.delimited]
  exact readReturn_none rest ends

theorem readsAs_ret_some (plain : i.isPlain) (argument : i.Reads) :
    ReadsAs StmtEnds readStmt (ret (some i) p).id (ret (some i) p).normal := by
  have stmt_plain : (ret (some i) p).isPlain := plain
  apply readsAs_of_takes stmt_plain
  intro fuel enough rest ends
  rw [readStmt, leadingWord_id stmt_plain rfl ends.closed.delimited]
  rw [toList_id_ret] at enough ⊢
  rw [List.length_append] at enough
  exact readReturn_some (i.heads_id plain) (argument.takes (by omega)) rest ends

theorem readsAs_exit : ReadsAs StmtEnds readStmt (exit p).id (exit p).normal := by
  apply readsAs_of_takes rfl
  intro fuel _ rest ends
  rw [readStmt, leadingWord_id rfl rfl ends.closed.delimited]
  change some (exit default, (spanName ("break".toList ++ rest)).2) = _
  rw [spanName_append (by decide) ends.closed.delimited]
  rfl

theorem readsAs_next : ReadsAs StmtEnds readStmt (next p).id (next p).normal := by
  apply readsAs_of_takes rfl
  intro fuel _ rest ends
  rw [readStmt, leadingWord_id rfl rfl ends.closed.delimited]
  change some (next default, (spanName ("continue".toList ++ rest)).2) = _
  rw [spanName_append (by decide) ends.closed.delimited]
  rfl

end Stmt

/-! ### Whole trees -/

theorem readsAs_field {k v : Expr} (plain : k.isPlain) (key : k.Reads) (value : v.Reads) :
    ReadsAs Closed
      (fun fuel => readField (readExpr fuel)) (k.id ++ ":" ++ v.id) (k.normal, v.normal) := by
  have shape : (k.id ++ ":" ++ v.id).toList = k.id.toList ++ ':' :: v.id.toList := by simp
  constructor
  · rw [shape]
    exact ((k.heads_id plain).append (delimited_cons (by decide) _)).starts
  · intro fuel enough
    rw [shape] at enough ⊢
    simp only [List.length_append, List.length_cons] at enough
    exact readField_append (key.takes (by omega)) (value.takes (by omega))

theorem readsAs_plain {n : String} (name : isName n) :
    ReadsAs ParamEnds (fun fuel => readParam (readExpr fuel)) n (.plain n default) where
  starts := by simpa using starts_of_isName name []
  takes _ _ := readParam_plain name

theorem readsAs_withDefault {n : String} {d : Expr} (name : isName n) (value : d.Reads) :
    ReadsAs ParamEnds (fun fuel => readParam (readExpr fuel)) (n ++ "=" ++ d.id)
      (.withDefault n d.normal default) := by
  have shape : (n ++ "=" ++ d.id).toList = n.toList ++ '=' :: d.id.toList := by simp
  constructor
  · rw [shape]
    exact starts_of_isName name _
  · intro fuel enough
    rw [shape] at enough ⊢
    simp only [List.length_append, List.length_cons] at enough
    exact readParam_withDefault name (value.takes (by omega))

theorem elseReads_some {b : List Stmt} (plain : plainStmts b)
    (other : b.head?.any Stmt.isConditional = false)
    (stmts : List.Forall₂ (ReadsAs StmtEnds readStmt) (idStmts b) (normalStmts b)) :
    Stmt.ElseReads (some b) := by
  rintro _ ⟨⟩
  refine ⟨stmts, fun rest => ?_⟩
  cases b with
  | nil =>
    have blank : leadingWord (' ' :: ("end".toList ++ rest)) = "" := rfl
    change leadingWord (' ' :: ("end".toList ++ rest)) ≠ "if"
    rw [blank]
    decide
  | cons s ss =>
    simp only [plainStmts, Bool.and_eq_true] at plain
    have lone : s.isConditional = false := by simpa using other
    obtain ⟨more, shape, delimited⟩ := joined_cons s.id (idStmts ss)
    rw [idStmts, shape, List.append_assoc]
    exact Stmt.leadingWord_id_ne_if plain.1 lone (delimited.append (delimited_cons (by decide) _))

mutual

/-- The id of a plain expression is read as its normal form, and the reader goes on with what
follows. -/
theorem Expr.reads : ∀ e : Expr, e.isPlain → e.Reads
  | .nil _, _ => .of_lone_word (w := "null") rfl (by decide) (by decide) fun _ _ => rfl
  | .string v _, _ => .string v
  | .number x _, plain => by
    simp only [Expr.isPlain, Bool.and_eq_true, Bool.not_eq_true'] at plain
    exact .number plain.1 plain.2
  | .boolean true _, _ => .of_lone_word (w := "true") rfl (by decide) (by decide) fun _ _ => rfl
  | .boolean false _, _ => .of_lone_word (w := "false") rfl (by decide) (by decide) fun _ _ => rfl
  | .identifier n _, plain => .identifier plain
  | .member b n _, plain => by
    simp only [Expr.isPlain, Bool.and_eq_true, Bool.not_eq_true', Bool.and_eq_false_imp] at plain
    obtain ⟨⟨⟨⟨base, bare⟩, other⟩, name⟩, digit⟩ := plain
    refine (b.reads base).member bare other name fun number c cs here => ?_
    simpa [here] using digit number
  | .index b i _, plain => by
    simp only [Expr.isPlain, Bool.and_eq_true, Bool.not_eq_true',
      Option.isNone_iff_eq_none] at plain
    obtain ⟨⟨⟨base, bare⟩, key⟩, other⟩ := plain
    exact (b.reads base).index bare ((i.reads key).readsAs key) other
  | .slice b l r _, plain => by
    simp only [Expr.isPlain, Bool.and_eq_true, Bool.not_eq_true'] at plain
    obtain ⟨⟨⟨base, bare⟩, left⟩, right⟩ := plain
    exact (b.reads base).slice bare (takesOption l left) (takesOption r right)
  | .call b as _, plain => by
    simp only [Expr.isPlain, Bool.and_eq_true, Bool.not_eq_true'] at plain
    obtain ⟨⟨base, bare⟩, arguments⟩ := plain
    exact (b.reads base).call bare (readsExprs as arguments)
  | .unary o a _, plain => (a.reads plain).unary o
  | .binary l o r _, plain => by
    simp only [Expr.isPlain, Bool.and_eq_true] at plain
    exact (l.reads plain.1).binary o (r.reads plain.2)
  | .map fs _, plain => .map (readsFields fs plain)
  | .list is _, plain => .list (readsExprs is plain)
  | .function (.mk ps body _) _, plain => by
    simp only [Expr.isPlain, FunctionDecl.isPlain, Bool.and_eq_true] at plain
    exact .function (readsParams ps plain.1) (readsStmts body plain.2)
  | .unknown k _, plain => .unknown plain

theorem takesOption : ∀ o : Option Expr, plainOption o →
    ∀ fuel, 2 * (idOption o).toList.length < fuel →
    TakesOption (readExpr fuel) (idOption o).toList (normalOption o)
  | none, _, _, _ => rfl
  | some e, plain, _, enough => ⟨(e.heads_id plain).starts, (e.reads plain).takes enough⟩

theorem readsExprs : ∀ es : List Expr, plainExprs es →
    List.Forall₂ (ReadsAs Closed readExpr) (idExprs es) (normalExprs es)
  | [], _ => .nil
  | e :: es, plain => by
    simp only [plainExprs, Bool.and_eq_true] at plain
    exact .cons ((e.reads plain.1).readsAs plain.1) (readsExprs es plain.2)

theorem readsFields : ∀ fs : Fields, plainFields fs →
    List.Forall₂ (ReadsAs Closed fun fuel => readField (readExpr fuel)) (idFields fs)
      (normalFields fs)
  | [], _ => .nil
  | (k, v) :: fs, plain => by
    simp only [plainFields, Bool.and_eq_true] at plain
    exact .cons (readsAs_field plain.1.1 (k.reads plain.1.1) (v.reads plain.1.2))
      (readsFields fs plain.2)

theorem readsParams : ∀ ps : List Param, plainParams ps →
    List.Forall₂ (ReadsAs ParamEnds fun fuel => readParam (readExpr fuel)) (idParams ps)
      (normalParams ps)
  | [], _ => .nil
  | .plain n _ :: ps, plain => by
    simp only [plainParams, Param.isPlain, Bool.and_eq_true] at plain
    exact .cons (readsAs_plain plain.1) (readsParams ps plain.2)
  | .withDefault n d _ :: ps, plain => by
    simp only [plainParams, Param.isPlain, Bool.and_eq_true] at plain
    exact .cons (readsAs_withDefault plain.1.1 (d.reads plain.1.2)) (readsParams ps plain.2)

theorem readsStmts : ∀ ss : List Stmt, plainStmts ss →
    List.Forall₂ (ReadsAs StmtEnds readStmt) (idStmts ss) (normalStmts ss)
  | [], _ => .nil
  | s :: ss, plain => by
    simp only [plainStmts, Bool.and_eq_true] at plain
    exact .cons (s.readsAs plain.1) (readsStmts ss plain.2)

theorem elseReads : ∀ o : Option (List Stmt), plainBody o → Stmt.ElseReads o
  | none, _ => nofun
  | some b, plain => by
    simp only [plainBody, Bool.and_eq_true, Bool.not_eq_true'] at plain
    exact elseReads_some plain.1 plain.2 (readsStmts b plain.1)

theorem clausesRead : ∀ cs : Clauses, plainClauses cs → Stmt.ClausesRead cs
  | [], _ => .nil
  | (c, b) :: cs, plain => by
    simp only [plainClauses, Bool.and_eq_true] at plain
    exact .cons ((c.reads plain.1.1).readsAs plain.1.1) (readsStmts b plain.1.2)
      (clausesRead cs plain.2)

theorem Stmt.readsAs : ∀ s : Stmt, s.isPlain → ReadsAs StmtEnds readStmt s.id s.normal
  | .assign t i p, plain => by
    have parts := plain
    simp only [Stmt.isPlain, Bool.and_eq_true] at parts
    exact Stmt.readsAs_assign plain (t.reads parts.1) (i.reads parts.2)
  | .expr e, plain => Stmt.readsAs_expr plain (e.reads plain)
  | .cond cs o p, plain => by
    have parts := plain
    simp only [Stmt.isPlain, Bool.and_eq_true] at parts
    exact Stmt.readsAs_cond plain (clausesRead cs parts.1.2) (elseReads o parts.2)
  | .whileLoop c b p, plain => by
    have parts := plain
    simp only [Stmt.isPlain, Bool.and_eq_true] at parts
    exact Stmt.readsAs_whileLoop plain (c.reads parts.1) (readsStmts b parts.2)
  | .forLoop v i b p, plain => by
    have parts := plain
    simp only [Stmt.isPlain, Bool.and_eq_true] at parts
    exact Stmt.readsAs_forLoop plain (v.reads parts.1.1) (i.reads parts.1.2) (readsStmts b parts.2)
  | .ret none _, _ => Stmt.readsAs_ret_none
  | .ret (some a) _, plain => Stmt.readsAs_ret_some plain (a.reads plain)
  | .exit _, _ => Stmt.readsAs_exit
  | .next _, _ => Stmt.readsAs_next

end

theorem Expr.readExpr_id {e : Expr} (plain : e.isPlain) {fuel : Nat}
    (enough : 2 * e.id.toList.length < fuel) : readExpr fuel e.id.toList = some (e.normal, []) := by
  have read := (e.reads plain).takes enough [] nofun
  rwa [List.append_nil] at read

end ScriptInference
