import ScriptInference.Proofs.Hashing.IdReading

/-!
# The characters of ids

How the id of a tree is put together from the ids of its parts, and how the ids of plain trees
start.
-/

namespace ScriptInference

namespace IdReader

/-- The texts with a separator between them. -/
def joined (separator : Char) (texts : List String) : List Char :=
  [separator].intercalate (texts.map String.toList)

theorem joined_cons_cons (separator : Char) (s t : String) (texts : List String) :
    joined separator (s :: t :: texts) =
      s.toList ++ separator :: joined separator (t :: texts) := by
  simp [joined, List.intercalate_cons_cons]

theorem toList_intercalate_semicolon (texts : List String) :
    (String.intercalate ";" texts).toList = joined ';' texts := by
  simp [joined]

theorem length_le_joined (separator : Char) {texts : List String} {t : String} (h : t ∈ texts) :
    t.toList.length ≤ (joined separator texts).length := by
  induction texts with
  | nil => cases h
  | cons s texts ih =>
    cases texts with
    | nil => simp_all [joined]
    | cons s' texts =>
      rw [joined_cons_cons]
      simp only [List.length_append, List.length_cons]
      rcases List.mem_cons.1 h with rfl | later
      · omega
      · have := ih later
        omega

theorem length_le_length_joined (separator : Char) (texts : List String) :
    texts.length ≤ (joined separator texts).length + 1 := by
  induction texts with
  | nil => exact Nat.zero_le _
  | cons s texts ih =>
    cases texts with
    | nil => simp
    | cons s' texts =>
      rw [joined_cons_cons]
      simp only [List.length_append, List.length_cons] at ih ⊢
      omega

theorem joined_cons (s : String) : ∀ texts, ∃ more, joined ';' (s :: texts) = s.toList ++ more ∧
    Delimited more
  | [] => ⟨[], by simp [joined], nofun⟩
  | t :: texts => ⟨_, joined_cons_cons ';' s t texts, delimited_cons (by decide) _⟩

end IdReader

open IdReader

theorem Binary64.toList_plainText {x : Binary64} (finite : x.isFinite) :
    x.plainText.toList = (NumberFormat.plain.numeral x).chars := by
  have bound : x.absBits < infinityBits := of_decide_eq_true finite
  have number : x.isNaN = false ∧ x.isInfinite = false := by
    simp only [isNaN, isInfinite, decide_eq_false_iff_not]
    omega
  simp [plainText, number, Numeral.text]

/-- A number that is not negative starts with a digit. -/
theorem Binary64.plainText_eq_cons {x : Binary64} (finite : x.isFinite)
    (positive : x.negative = false) :
    ∃ (d : Digit) (cs : List Char), x.plainText.toList = d.toChar :: cs := by
  obtain ⟨d, ds, whole⟩ :=
    List.exists_cons_of_ne_nil (NumberFormat.plain.spelled_numeral finite).whole_ne_nil
  have written := Json.chars_append (NumberFormat.plain.numeral x) []
  rw [List.append_nil, (plain_numeral x).1, positive, whole] at written
  rw [toList_plainText finite, written]
  exact ⟨d, _, rfl⟩

/-! ### The characters of ids -/

namespace Expr

variable {b i a l r : Expr} {n : String} {s : Span}

theorem toList_id_string (v : String) :
    (Expr.string v s).id.toList = '"' :: (v.toList.flatMap Json.escapeChar ++ ['"']) := by
  simp [Expr.id, Json.quote, Json.quoteChars]

theorem toList_id_member (h : b.isLocals = false) :
    (b.member n s).id.toList = b.id.toList ++ '.' :: n.toList := by
  simp [Expr.id, memberId, h]

theorem toList_id_index (h : i.stringLiteral? = none) :
    (b.index i s).id.toList = b.id.toList ++ '[' :: (i.id.toList ++ [']']) := by
  simp [Expr.id, h]

theorem toList_id_slice (l r : Option Expr) :
    (b.slice l r s).id.toList =
    b.id.toList ++ '[' :: ((idOption l).toList ++ ':' :: ((idOption r).toList ++ [']'])) := by
  simp [Expr.id]

theorem toList_id_call (as : List Expr) :
    (b.call as s).id.toList = b.id.toList ++ '(' :: (joined ',' (idExprs as) ++ [')']) := by
  simp [Expr.id, commaList, joined]

theorem toList_id_unary (o : UnaryOp) :
    (a.unary o s).id.toList = o.symbol.toList ++ a.id.toList := by
  simp [Expr.id]

theorem toList_id_binary (o : BinaryOp) :
    (l.binary o r s).id.toList =
    '(' :: (l.id.toList ++ ' ' :: (o.symbol.toList ++ ' ' :: (r.id.toList ++ [')']))) := by
  simp [Expr.id]

theorem toList_id_map (fs : Fields) :
    (Expr.map fs s).id.toList = '\x7b' :: (joined ',' (idFields fs) ++ ['\x7d']) := by
  simp [Expr.id, braced, commaList, joined]

theorem toList_id_list (is : List Expr) :
    (Expr.list is s).id.toList = '[' :: (joined ',' (idExprs is) ++ [']']) := by
  simp [Expr.id, commaList, joined]

theorem toList_id_function (ps : List Param) (body : List Stmt) (t : Span) :
    (Expr.function (.mk ps body t) s).id.toList = "function".toList ++
      '(' :: (joined ',' (idParams ps) ++
        ')' :: '\x7b' :: (joined ';' (idStmts body) ++ ['\x7d'])) := by
  simp [Expr.id, FunctionDecl.canonicalId, braced, commaList, joined]

theorem toList_id_unknown (k : String) :
    (Expr.unknown k s).id.toList = '<' :: (k.toList ++ ['>']) := by
  simp [Expr.id]

end Expr

theorem not_mem_blockWords {n : String} (h : keywords.contains n = false) : n ∉ blockWords := by
  have reserved : ∀ w ∈ blockWords, w ∈ keywords := by decide
  intro block
  simp [reserved n block] at h

theorem Expr.heads_id : ∀ e : Expr, e.isPlain → Heads e.id.toList
  | .nil _, _ => heads_of_word (w := "null") (by decide) (by decide)
  | .string v _, _ => by
    rw [toList_id_string]
    exact heads_cons (by decide) _
  | .number x _, plain => by
    simp only [Expr.isPlain, Bool.and_eq_true, Bool.not_eq_true'] at plain
    obtain ⟨d, cs, shape⟩ := Binary64.plainText_eq_cons plain.1 plain.2
    rw [Expr.id, shape]
    exact heads_cons (opens_digit d) cs
  | .boolean true _, _ => heads_of_word (w := "true") (by decide) (by decide)
  | .boolean false _, _ => heads_of_word (w := "false") (by decide) (by decide)
  | .identifier n _, plain => by
    simp only [Expr.isPlain, isIdentifier, Bool.and_eq_true, Bool.not_eq_true'] at plain
    exact heads_of_word plain.1 (not_mem_blockWords plain.2)
  | .member b n _, plain => by
    simp only [Expr.isPlain, Bool.and_eq_true, Bool.not_eq_true'] at plain
    rw [toList_id_member plain.1.1.2]
    exact (heads_id b plain.1.1.1.1).append (delimited_cons (by decide) _)
  | .index b i _, plain => by
    simp only [Expr.isPlain, Bool.and_eq_true, Option.isNone_iff_eq_none] at plain
    rw [toList_id_index plain.2]
    exact (heads_id b plain.1.1.1).append (delimited_cons (by decide) _)
  | .slice b l r _, plain => by
    simp only [Expr.isPlain, Bool.and_eq_true] at plain
    rw [toList_id_slice]
    exact (heads_id b plain.1.1.1).append (delimited_cons (by decide) _)
  | .call b as _, plain => by
    simp only [Expr.isPlain, Bool.and_eq_true] at plain
    rw [toList_id_call]
    exact (heads_id b plain.1.1).append (delimited_cons (by decide) _)
  | .unary .reference a _, _ | .unary .negate a _, _ => by
    rw [toList_id_unary]
    exact heads_cons (by decide) _
  | .unary .new a _, _ => by
    rw [toList_id_unary]
    exact heads_word (w := "new") (by decide) (by decide) (delimited_cons (c := ' ') (by decide) _)
  | .unary .not a _, _ => by
    rw [toList_id_unary]
    exact heads_word (w := "not") (by decide) (by decide) (delimited_cons (c := ' ') (by decide) _)
  | .binary l o r _, _ => by
    rw [toList_id_binary]
    exact heads_cons (by decide) _
  | .map fs _, _ => by
    rw [toList_id_map]
    exact heads_cons (by decide) _
  | .list is _, _ => by
    rw [toList_id_list]
    exact heads_cons (by decide) _
  | .function (.mk ps body t) _, _ => by
    rw [toList_id_function]
    exact heads_word (by decide) (by decide) (delimited_cons (by decide) _)
  | .unknown k _, _ => by
    rw [toList_id_unknown]
    exact heads_cons (by decide) _

/-! ### Statements -/

namespace Stmt

variable {t i c v : Expr} {b : List Stmt} {p : Span}

/-- The word that starts a statement that is neither an assignment nor an expression. -/
def keyword? : Stmt → Option String
  | assign _ _ _ | expr _ => none
  | cond _ _ _ => some "if"
  | whileLoop _ _ _ => some "while"
  | forLoop _ _ _ _ => some "for"
  | ret _ _ => some "return"
  | exit _ => some "break"
  | next _ => some "continue"

theorem toList_id_assign : (assign t i p).id.toList = t.id.toList ++ '=' :: i.id.toList :=
  by simp [Stmt.id]

theorem toList_id_whileLoop :
    (whileLoop c b p).id.toList =
    "while ".toList ++ (c.id.toList ++ ' ' :: (joined ';' (idStmts b) ++ " end".toList)) := by
  simp [Stmt.id, joined]

theorem toList_id_forLoop :
    (forLoop v i b p).id.toList =
    "for ".toList ++ (v.id.toList ++
      (" in ".toList ++ (i.id.toList ++ ' ' :: (joined ';' (idStmts b) ++ " end".toList)))) := by
  simp [Stmt.id, joined]

theorem toList_id_ret : (ret (some i) p).id.toList = "return ".toList ++ i.id.toList :=
  by simp [Stmt.id]

theorem toList_condId_end (text : String) :
    (condId [text] none).toList = text.toList ++ " end".toList := by
  simp [condId]

theorem toList_condId_else (text : String) (o : String) :
    (condId [text] (some o)).toList =
      text.toList ++ (" else ".toList ++ (o.toList ++ " end".toList)) := by
  simp [condId]

theorem toList_condId_more (text second : String) (texts : List String) (o : Option String) :
    (condId (text :: second :: texts) o).toList =
      text.toList ++ (" else ".toList ++ (condId (second :: texts) o).toList) := by
  simp [condId]

theorem toList_clause : ("if " ++ c.id ++ " then " ++ String.intercalate ";" (idStmts b)).toList =
    "if ".toList ++ (c.id.toList ++ (" then ".toList ++ joined ';' (idStmts b))) := by
  simp [joined]

theorem toList_condId_cons (text : String) :
    ∀ texts o, ∃ more, (condId (text :: texts) o).toList = text.toList ++ more
  | [], none => ⟨_, toList_condId_end text⟩
  | [], some o => ⟨_, toList_condId_else text o⟩
  | second :: texts, o => ⟨_, toList_condId_more text second texts o⟩

theorem toList_condId_if (c : Expr) (b : List Stmt) (cs : Clauses) (o : Option String) :
    ∃ text, (condId (idClauses ((c, b) :: cs)) o).toList = "if".toList ++ ' ' :: text := by
  obtain ⟨more, shape⟩ := toList_condId_cons _ (idClauses cs) o
  rw [toList_clause, List.append_assoc] at shape
  exact ⟨_, shape⟩

theorem id_eq_keyword : ∀ (s : Stmt) {w : String}, s.isPlain → s.keyword? = some w →
    isWord w ∧ ∃ cs, s.id.toList = w.toList ++ cs ∧ Delimited cs
  | cond [] o _, _, plain, _ => by simp [Stmt.isPlain] at plain
  | cond ((c, b) :: cs) o _, _, _, rfl => by
    obtain ⟨text, shape⟩ := toList_condId_if c b cs (idElse o)
    exact ⟨by decide, _, shape, delimited_cons (by decide) _⟩
  | whileLoop _ _ _, _, _, rfl => ⟨by decide, _, toList_id_whileLoop, delimited_cons (by decide) _⟩
  | forLoop _ _ _ _, _, _, rfl => ⟨by decide, _, toList_id_forLoop, delimited_cons (by decide) _⟩
  | ret (some _) _, _, _, rfl => ⟨by decide, _, toList_id_ret, delimited_cons (by decide) _⟩
  | ret none _, _, _, rfl | exit _, _, _, rfl | next _, _, _, rfl =>
    ⟨by decide, [], (List.append_nil _).symm, nofun⟩

theorem heads_id : ∀ s : Stmt, s.isPlain → s.keyword? = none → Heads s.id.toList
  | assign t i _, plain, _ => by
    simp only [Stmt.isPlain, Bool.and_eq_true] at plain
    rw [toList_id_assign]
    exact (t.heads_id plain.1).append (delimited_cons (by decide) _)
  | expr e, plain, _ => e.heads_id plain

theorem leadingWord_id {s : Stmt} {w : String} (plain : s.isPlain) (keyword : s.keyword? = some w)
    {rest : List Char} (ends : Delimited rest) : leadingWord (s.id.toList ++ rest) = w := by
  obtain ⟨word, cs, shape, delimited⟩ := s.id_eq_keyword plain keyword
  rw [shape, List.append_assoc]
  exact leadingWord_append word (delimited.append ends)

theorem starts_id {s : Stmt} (plain : s.isPlain) : Starts s.id.toList := by
  cases keyword : s.keyword? with
  | none => exact (s.heads_id plain keyword).starts
  | some w =>
    obtain ⟨word, cs, shape, -⟩ := s.id_eq_keyword plain keyword
    simp only [isWord, Bool.and_eq_true] at word
    rw [shape]
    exact starts_of_isName word.1 cs

/-- Only a conditional starts like a conditional. -/
theorem leadingWord_id_ne_if {s : Stmt} (plain : s.isPlain) (other : s.isConditional = false)
    {rest : List Char} (ends : Delimited rest) : leadingWord (s.id.toList ++ rest) ≠ "if" := by
  cases keyword : s.keyword? with
  | none =>
    intro here
    exact (s.heads_id plain keyword).leadingWord_not_mem ends (by rw [here]; decide)
  | some w =>
    rw [leadingWord_id plain keyword ends]
    rintro rfl
    cases s with
    | cond cs o p => exact absurd other (by simp [isConditional])
    | _ => simp [keyword?] at keyword

end Stmt

end ScriptInference
