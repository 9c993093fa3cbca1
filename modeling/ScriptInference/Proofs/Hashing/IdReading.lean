import ScriptInference.Proofs.Hashing.IdReader
import ScriptInference.Proofs.Hashing.Likeness
import ScriptInference.Proofs.Json.RoundTrip

/-!
# The reader of ids at work

What each part of the reader takes off the front of a text, given what may follow.
-/

namespace ScriptInference

namespace IdReader

variable {cs rest : List Char} {n w : String} {c separator : Char} {texts : List (List Char)}

/-! ### What follows -/

/-- A name ends here. -/
def Delimited (rest : List Char) : Prop := ∀ c cs, rest = c :: cs → endsName c

/-- A complete expression ends here. -/
def Closed (rest : List Char) : Prop := ∀ c cs, rest = c :: cs → closes c

theorem delimited_cons (h : endsName c) (cs : List Char) : Delimited (c :: cs) := by
  intro _ _ here
  cases here
  exact h

theorem closed_cons (h : closes c) (cs : List Char) : Closed (c :: cs) := by
  intro _ _ here
  cases here
  exact h

theorem endsName_of_closes (h : closes c) : endsName c := by
  simp [closes, endsName] at h ⊢
  tauto

theorem Closed.delimited (h : Closed rest) : Delimited rest :=
  fun c cs here => endsName_of_closes (h c cs here)

theorem Delimited.append (first : Delimited cs) (second : Delimited rest) :
    Delimited (cs ++ rest) := by
  cases cs with
  | nil => exact second
  | cons c cs => exact delimited_cons (first c cs rfl) _

theorem not_digit_of_endsName (h : endsName c) : Digit.ofChar? c = none := by
  simp [endsName] at h
  rcases h with rfl | rfl | rfl | rfl | rfl | rfl | rfl | rfl | rfl | rfl | rfl <;> decide

theorem opens_digit : ∀ d : Digit, opens d.toChar := by decide

/-! ### Names and words -/

theorem exists_cons_of_isName (name : isName n) : ∃ c cs, n.toList = c :: cs := by
  simp only [isName, Bool.and_eq_true, decide_eq_true_eq] at name
  exact List.exists_cons_of_ne_nil fun empty => name.1 (String.toList_eq_nil_iff.1 empty)

theorem spanName_append (name : isName n) (h : Delimited rest) :
    spanName (n.toList ++ rest) = (n, rest) := by
  have clean : ∀ c ∈ n.toList, (!endsName c) = true := by
    simp only [isName, Bool.and_eq_true, List.all_eq_true] at name
    exact name.2
  have stop : rest.takeWhile (!endsName ·) = [] ∧ rest.dropWhile (!endsName ·) = rest := by
    cases rest with
    | nil => exact ⟨rfl, rfl⟩
    | cons c cs => simp [h c cs rfl]
  rw [spanName, List.takeWhile_append_of_pos clean, List.dropWhile_append_of_pos clean, stop.1,
    stop.2, List.append_nil, String.ofList_toList]

theorem leadingWord_append (word : isWord w) (h : Delimited rest) :
    leadingWord (w.toList ++ rest) = w := by
  simp only [isWord, Bool.and_eq_true] at word
  have span := spanName_append word.1 h
  obtain ⟨c, cs, chars⟩ := exists_cons_of_isName word.1
  have first : opens c = false := by simpa [chars] using word.2
  rw [chars, List.cons_append] at span ⊢
  rw [leadingWord, first, if_neg (by decide), span]

theorem leadingWord_of_opens (h : opens c) (cs : List Char) : leadingWord (c :: cs) = "" := if_pos h

theorem expect_append (text : String) (rest : List Char) :
    expect text (text.toList ++ rest) = some rest := by
  rw [expect, if_pos (by simp), ← String.length_toList, List.drop_left]

/-! ### Numbers -/

theorem plain_numeral (x : Binary64) :
    (NumberFormat.plain.numeral x).negative = x.negative ∧
      (NumberFormat.plain.numeral x).exponent = none := by
  unfold NumberFormat.numeral
  split
  · simp
  · have positional : ∀ e, NumberFormat.plain.isPositional e := fun _ => rfl
    simp [positional]

/-- A point that follows a number is not followed by a digit. -/
def NoFraction (rest : List Char) : Prop := ∀ cs, rest = '.' :: cs → Numeral.NoDigit cs

theorem spanFraction_of_noFraction (h : NoFraction rest) : (Numeral.spanFraction rest).1 = [] := by
  rw [Numeral.spanFraction.eq_def]
  split
  · rename_i cs
    exact congrArg Prod.fst (Numeral.spanDigits_append [] (h cs rfl))
  · rfl

theorem readNumber_plain {x : Binary64} (finite : x.isFinite) (positive : x.negative = false)
    (ends : Delimited rest) (fraction : NoFraction rest) :
    readNumber ((NumberFormat.plain.numeral x).chars ++ rest) = (x, rest) := by
  obtain ⟨sign, exponent⟩ := plain_numeral x
  have value := Binary64.nearest_plain finite
  have digit : Numeral.NoDigit rest := fun c cs here => not_digit_of_endsName (ends c cs here)
  generalize NumberFormat.plain.numeral x = n at sign exponent value
  obtain ⟨negative, whole, fractionDigits, power⟩ := n
  obtain rfl : negative = false := sign.trans positive
  obtain rfl : power = none := exponent
  rw [Json.chars_append]
  cases fractionDigits with
  | nil =>
    have digits : Numeral.spanDigits (whole.map Digit.toChar ++ rest) = (whole, rest) :=
      Numeral.spanDigits_append whole digit
    change readNumber (whole.map Digit.toChar ++ rest) = _
    simp only [readNumber, digits, spanFraction_of_noFraction fraction, List.isEmpty_nil,
      if_true, value]
  | cons d ds =>
    have point : Numeral.NoDigit ('.' :: ((d :: ds).map Digit.toChar ++ rest)) := by
      intro c cs here
      cases here
      decide
    change readNumber (whole.map Digit.toChar ++ '.' :: ((d :: ds).map Digit.toChar ++ rest)) = _
    simp only [readNumber, Numeral.spanDigits_append whole point, Numeral.spanFraction,
      Numeral.spanDigits_append (d :: ds) digit]
    simp [value]

/-! ### Lists -/

section

variable {α : Type} {follow : List Char → Prop} {item : List Char → Option (α × List Char)}

/-- The reader takes the text off the front and gives the value. -/
def Takes (follow : List Char → Prop) (read : List Char → Option (α × List Char)) (text : List Char)
    (a : α) : Prop :=
  ∀ rest, follow rest → read (text ++ rest) = some (a, rest)

theorem readSeparated_append {as : List α} (items : List.Forall₂ (Takes follow item) texts as)
    (some_text : texts ≠ []) (separates : ∀ cs, follow (separator :: cs)) (ends : follow rest)
    (stop : ∀ cs, rest ≠ separator :: cs) {n : Nat} (enough : texts.length ≤ n) :
    readSeparated item separator n ([separator].intercalate texts ++ rest) = some (as, rest) := by
  induction items generalizing n with
  | nil => exact absurd rfl some_text
  | @cons text a texts as first others ih =>
    obtain ⟨n, rfl⟩ : ∃ m, n = m + 1 :=
      ⟨_, (Nat.succ_pred_eq_of_pos (by simp at enough; omega)).symm⟩
    cases others with
    | nil =>
      rw [List.intercalate_singleton, readSeparated, first rest ends]
      cases rest with
      | nil => rfl
      | cons c cs =>
        dsimp only
        rw [if_neg fun here => stop cs (by rw [here])]
    | cons second others =>
      rw [List.intercalate_cons_cons, List.append_assoc, List.append_assoc, List.singleton_append,
        readSeparated, first _ (separates _)]
      dsimp only
      rw [if_pos rfl, ih (List.cons_ne_nil _ _) (Nat.le_of_succ_le_succ enough)]
      rfl

/-- What starts a text is neither a blank nor a sign that ends something. -/
def Starts (text : List Char) : Prop := ∃ c cs, text = c :: cs ∧ closes c = false

theorem Starts.append_ne {text : List Char} (h : Starts text) (closing : closes c)
    (rest cs : List Char) : text ++ rest ≠ c :: cs := by
  obtain ⟨d, ds, rfl, opening⟩ := h
  intro here
  rw [(List.cons.inj here).1, closing] at opening
  exact absurd opening (by decide)

theorem Starts.intercalate {separator text : List Char} (h : Starts text)
    (texts : List (List Char)) : Starts (separator.intercalate (text :: texts)) := by
  obtain ⟨c, cs, rfl, opening⟩ := h
  cases texts with
  | nil => exact ⟨c, cs, List.intercalate_singleton, opening⟩
  | cons text texts => exact ⟨c, _, List.intercalate_cons_cons, opening⟩

theorem readList_append {close : Char} {as : List α}
    (items : List.Forall₂ (Takes follow item) texts as) (starts : ∀ text ∈ texts, Starts text)
    (separates : ∀ cs, follow (separator :: cs)) (ends : ∀ cs, follow (close :: cs))
    (closing : closes close) (different : close ≠ separator) {n : Nat} (enough : texts.length ≤ n)
    (rest : List Char) :
    readList item separator close n ([separator].intercalate texts ++ close :: rest) =
      some (as, rest) := by
  cases texts with
  | nil =>
    cases items
    exact if_pos rfl
  | cons text texts =>
    have read := readSeparated_append items (List.cons_ne_nil _ _) separates (ends rest)
      (fun _ here => different (List.cons.inj here).1) enough
    have first := starts text List.mem_cons_self
    obtain ⟨c, cs, shape, opening⟩ : Starts ([separator].intercalate (text :: texts)) :=
      first.intercalate texts
    rw [shape, List.cons_append] at read ⊢
    rw [readList, if_neg fun here => by simp [here, closing] at opening, read]
    exact if_pos rfl

end

/-! ### Parts of expressions -/

section

variable {expr : List Char → Option (Expr × List Char)} {text left right : List Char} {e l r : Expr}

theorem readField_append (key : Takes Closed expr left l) (value : Takes Closed expr right r) :
    Takes Closed (readField expr) (left ++ ':' :: right) (l, r) := by
  intro rest ends
  have colon := key (':' :: (right ++ rest)) (closed_cons (by decide) _)
  simp only [List.append_assoc, List.cons_append, readField, colon, value rest ends,
    Option.map_some]

/-- A parameter ends with its list or before the next one. -/
def ParamEnds (rest : List Char) : Prop := ∃ cs, rest = ',' :: cs ∨ rest = ')' :: cs

theorem ParamEnds.closed (h : ParamEnds rest) : Closed rest := by
  obtain ⟨cs, rfl | rfl⟩ := h <;> exact closed_cons (by decide) cs

theorem readParam_plain (name : isName n) :
    Takes ParamEnds (readParam expr) n.toList (.plain n default) := by
  intro rest ends
  rw [readParam, spanName_append name ends.closed.delimited]
  obtain ⟨cs, rfl | rfl⟩ := ends <;> rfl

theorem readParam_withDefault (name : isName n) (value : Takes Closed expr text e) :
    Takes ParamEnds (readParam expr) (n.toList ++ '=' :: text) (.withDefault n e default) := by
  intro rest ends
  have sign := spanName_append name (delimited_cons (c := '=') (by decide) (text ++ rest))
  simp only [List.append_assoc, List.cons_append, readParam, sign, value rest ends.closed,
    Option.map_some]

theorem readSymbol_append (o : BinaryOp) (rest : List Char) :
    readSymbol (o.symbol.toList ++ ' ' :: rest) = some (o, ' ' :: rest) := by
  cases o <;> rfl

theorem readBinary_append (first : Takes Closed expr left l) (second : Takes Closed expr right r)
    (o : BinaryOp) (rest : List Char) :
    readBinary expr (left ++ ' ' :: (o.symbol.toList ++ ' ' :: (right ++ ')' :: rest))) =
      some (.binary l o r default, rest) := by
  have blank :=
    first (' ' :: (o.symbol.toList ++ ' ' :: (right ++ ')' :: rest))) (closed_cons (by decide) _)
  have close := second (')' :: rest) (closed_cons (by decide) _)
  simp only [readBinary, blank, readSymbol_append, close]

theorem readKey_index (starts : Starts text) (key : Takes Closed expr text e) (base : Expr)
    (rest : List Char) :
    readKey expr base (text ++ ']' :: rest) = some (.index base e default, rest) := by
  rw [readKey, key _ (closed_cons (by decide) _)]
  · rfl
  · exact starts.append_ne (by decide) _

/-- The reader takes the text of an end of a slice, which may be missing. -/
def TakesOption (expr : List Char → Option (Expr × List Char)) (text : List Char) :
    Option Expr → Prop
  | none => text = []
  | some e => Starts text ∧ Takes Closed expr text e

theorem readRight_append {o : Option Expr} (h : TakesOption expr text o) (rest : List Char) :
    readRight expr (text ++ ']' :: rest) = some (o, rest) := by
  cases o with
  | none =>
    obtain rfl : text = [] := h
    rfl
  | some e =>
    rw [readRight, h.2 _ (closed_cons (by decide) _)]
    · rfl
    · exact h.1.append_ne (by decide) _

theorem readKey_slice {o p : Option Expr} (first : TakesOption expr left o)
    (second : TakesOption expr right p) (base : Expr) (rest : List Char) :
    readKey expr base (left ++ ':' :: (right ++ ']' :: rest)) =
      some (.slice base o p default, rest) := by
  cases o with
  | none =>
    obtain rfl : left = [] := first
    rw [List.nil_append, readKey, readRight_append second]
    rfl
  | some e =>
    rw [readKey, first.2 _ (closed_cons (by decide) _)]
    · simp only [readRight_append second, Option.map_some]
    · exact first.1.append_ne (by decide) _

end

/-! ### How ids start -/

/-- Words that start a statement or end a block. -/
def blockWords : List String := ["if", "while", "for", "return", "break", "continue", "end", "else"]

/-- The text starts with a character that opens an expression, or with a word of an expression. -/
def Heads (text : List Char) : Prop :=
  (∃ c cs, text = c :: cs ∧ opens c) ∨
    ∃ w cs, text = w.toList ++ cs ∧ isWord w ∧ w ∉ blockWords ∧ Delimited cs

theorem heads_cons (h : opens c) (cs : List Char) : Heads (c :: cs) := .inl ⟨c, cs, rfl, h⟩

theorem heads_word (word : isWord w) (expression : w ∉ blockWords) (ends : Delimited cs) :
    Heads (w.toList ++ cs) :=
  .inr ⟨w, cs, rfl, word, expression, ends⟩

theorem Heads.append {text : List Char} (h : Heads text) (ends : Delimited rest) :
    Heads (text ++ rest) := by
  rcases h with ⟨c, cs, rfl, opening⟩ | ⟨w, cs, rfl, word, expression, more⟩
  · exact heads_cons opening _
  · rw [List.append_assoc]
    exact heads_word word expression (more.append ends)

theorem Heads.leadingWord_not_mem {text : List Char} (h : Heads text) (ends : Delimited rest) :
    leadingWord (text ++ rest) ∉ blockWords := by
  rcases h.append ends with ⟨c, cs, here, opening⟩ | ⟨w, cs, here, word, expression, more⟩
  · rw [here, leadingWord_of_opens opening]
    decide
  · rw [here, leadingWord_append word more]
    exact expression

theorem heads_of_word (word : isWord w) (expression : w ∉ blockWords) : Heads w.toList :=
  .inr ⟨w, [], (List.append_nil _).symm, word, expression, nofun⟩

theorem closes_of_opens (h : opens c) : closes c = false := by
  cases closing : closes c with
  | false => rfl
  | true =>
    simp [opens, not_digit_of_endsName (endsName_of_closes closing)] at h
    rcases h with rfl | rfl | rfl | rfl | rfl | rfl | rfl <;> exact absurd closing (by decide)

theorem starts_of_isName (name : isName n) (cs : List Char) : Starts (n.toList ++ cs) := by
  obtain ⟨c, rest, chars⟩ := exists_cons_of_isName name
  have clean : endsName c = false := by
    simp only [isName, Bool.and_eq_true, List.all_eq_true, Bool.not_eq_true'] at name
    exact name.2 c (by simp [chars])
  refine ⟨c, rest ++ cs, by rw [chars, List.cons_append], ?_⟩
  cases closing : closes c with
  | false => rfl
  | true => simp [endsName_of_closes closing] at clean

theorem Heads.starts {text : List Char} (h : Heads text) : Starts text := by
  rcases h with ⟨c, cs, rfl, opening⟩ | ⟨w, cs, rfl, word, -, -⟩
  · exact ⟨c, cs, rfl, closes_of_opens opening⟩
  · simp only [isWord, Bool.and_eq_true] at word
    exact starts_of_isName word.1 cs

/-! ### Parts of statements -/

/-- The body of a conditional or a loop ends here. -/
def BlockEnds (rest : List Char) : Prop :=
  ∃ cs, rest = ' ' :: cs ∧ (leadingWord cs = "end" ∨ leadingWord cs = "else")

/-- A statement ends here: with the text, before the next one, or with its block. -/
def StmtEnds (rest : List Char) : Prop :=
  rest = [] ∨ (∃ cs, rest = ';' :: cs) ∨ (∃ cs, rest = '\x7d' :: cs) ∨ BlockEnds rest

theorem StmtEnds.closed (h : StmtEnds rest) : Closed rest := by
  rcases h with rfl | ⟨cs, rfl⟩ | ⟨cs, rfl⟩ | ⟨cs, rfl, -⟩
  · exact nofun
  · exact closed_cons (by decide) cs
  · exact closed_cons (by decide) cs
  · exact closed_cons (by decide) cs

theorem stmtEnds_separator (cs : List Char) : StmtEnds (';' :: cs) := .inr (.inl ⟨cs, rfl⟩)

theorem stmtEnds_brace (cs : List Char) : StmtEnds ('\x7d' :: cs) := .inr (.inr (.inl ⟨cs, rfl⟩))

theorem BlockEnds.stmtEnds (h : BlockEnds rest) : StmtEnds rest := .inr (.inr (.inr h))

theorem blockEnds_end (h : Delimited rest) : BlockEnds (" end".toList ++ rest) :=
  ⟨"end".toList ++ rest, rfl, .inl (leadingWord_append (by decide) h)⟩

theorem blockEnds_else (rest : List Char) : BlockEnds (" else ".toList ++ rest) :=
  ⟨"else".toList ++ ' ' :: rest, rfl,
    .inr (leadingWord_append (by decide) (delimited_cons (by decide) _))⟩

section

variable {expr : List Char → Option (Expr × List Char)} {stmt : List Char →
  Option (Stmt × List Char)}
variable {text left right block other : List Char} {e l r : Expr} {body otherwise : List Stmt}
  {n m : Nat}

theorem readBody_append (items : List.Forall₂ (Takes StmtEnds stmt) texts body)
    (starts : ∀ text ∈ texts, Starts text) (enough : texts.length ≤ n) :
    Takes BlockEnds (readBody stmt n) ([';'].intercalate texts) body := by
  intro rest ends
  obtain ⟨cs, rfl, -⟩ := id ends
  cases texts with
  | nil =>
    cases items
    rfl
  | cons text texts =>
    rw [readBody, readSeparated_append items (List.cons_ne_nil _ _) stmtEnds_separator ends.stmtEnds
      (by simp) enough]
    exact ((starts text List.mem_cons_self).intercalate texts).append_ne (by decide) _

theorem readAssignment_append (target : Takes Closed expr left l)
    (value : Takes Closed expr right r) :
    Takes StmtEnds (readAssignment expr) (left ++ '=' :: right) (.assign l r default) := by
  intro rest ends
  have sign := target ('=' :: (right ++ rest)) (closed_cons (by decide) _)
  simp only [List.append_assoc, List.cons_append, readAssignment, sign, value rest ends.closed,
    Option.map_some]

theorem readAssignment_expr (h : Takes Closed expr text e) :
    Takes StmtEnds (readAssignment expr) text (.expr e) := by
  intro rest ends
  rw [readAssignment, h rest ends.closed]
  rcases ends with rfl | ⟨cs, rfl⟩ | ⟨cs, rfl⟩ | ⟨cs, rfl, -⟩ <;> rfl

theorem readReturn_none : Takes StmtEnds (readReturn expr) "return".toList (.ret none default) := by
  intro rest ends
  rw [readReturn, expect_append]
  rcases ends with rfl | ⟨cs, rfl⟩ | ⟨cs, rfl⟩ | ⟨cs, rfl, word⟩
  · rfl
  · rfl
  · rfl
  · exact if_pos word

theorem readReturn_some (heads : Heads text) (argument : Takes Closed expr text e) :
    Takes StmtEnds (readReturn expr) ("return ".toList ++ text) (.ret (some e) default) := by
  intro rest ends
  have other : ¬(leadingWord (text ++ rest) = "end" ∨ leadingWord (text ++ rest) = "else") := by
    have word := heads.leadingWord_not_mem ends.closed.delimited
    rintro (here | here)
    · exact word (here ▸ by decide)
    · exact word (here ▸ by decide)
  have keyword := expect_append "return" (' ' :: (text ++ rest))
  change readReturn expr ("return".toList ++ ' ' :: (text ++ rest)) = _
  simp only [readReturn, keyword, if_neg other, argument rest ends.closed, Option.map_some]

theorem readFor_append (element : Takes Closed expr left l) (iterator : Takes Closed expr right r)
    (stmts : Takes BlockEnds (readBody stmt n) block body) :
    Takes StmtEnds (readFor expr stmt n)
      ("for ".toList ++ (left ++ (" in ".toList ++ (right ++ ' ' :: (block ++ " end".toList)))))
      (.forLoop l r body default) := by
  intro rest ends
  have first :=
    element (" in ".toList ++ (right ++ (" ".toList ++ (block ++ (" end".toList ++ rest)))))
    (closed_cons (by decide) _)
  have second :=
    iterator (" ".toList ++ (block ++ (" end".toList ++ rest))) (closed_cons (by decide) _)
  have third := stmts _ (blockEnds_end ends.closed.delimited)
  have regrouped : "for ".toList ++
      (left ++ (" in ".toList ++ (right ++ ' ' :: (block ++ " end".toList)))) ++ rest =
      "for ".toList ++ (left ++ (" in ".toList ++
        (right ++ (" ".toList ++ (block ++ (" end".toList ++ rest)))))) := by simp
  rw [regrouped]
  simp only [readFor, expect_append, first, second, third, Option.bind_eq_bind, Option.bind_some]
  rfl

theorem expect_else_end (rest : List Char) : expect " else " (" end".toList ++ rest) = none := rfl

section

variable (condition : Takes Closed expr text e)
  (stmts : Takes BlockEnds (readBody stmt n) block body)

include condition stmts

theorem readWhile_append :
    Takes StmtEnds (readWhile expr stmt n) ("while ".toList ++
      (text ++ ' ' :: (block ++ " end".toList))) (.whileLoop e body default) := by
  intro rest ends
  have first :=
    condition (" ".toList ++ (block ++ (" end".toList ++ rest))) (closed_cons (by decide) _)
  have second := stmts _ (blockEnds_end ends.closed.delimited)
  have regrouped : "while ".toList ++ (text ++ ' ' :: (block ++ " end".toList)) ++ rest =
      "while ".toList ++ (text ++ (" ".toList ++ (block ++ (" end".toList ++ rest)))) := by simp
  rw [regrouped]
  simp only [readWhile, expect_append, first, second, Option.bind_eq_bind, Option.bind_some]
  rfl

/-- The last clause of a conditional without an alternative. -/
theorem readClauses_end (ends : Delimited rest) :
    readClauses expr stmt n (m + 1)
        ("if ".toList ++ (text ++ (" then ".toList ++ (block ++ (" end".toList ++ rest))))) =
      some (([(e, body)], none), rest) := by
  have first :=
    condition (" then ".toList ++ (block ++ (" end".toList ++ rest))) (closed_cons (by decide) _)
  have second := stmts _ (blockEnds_end ends)
  simp only [readClauses, expect_append, first, second, expect_else_end, Option.bind_eq_bind,
    Option.bind_some]
  rfl

theorem readClauses_else (otherStmts : Takes BlockEnds (readBody stmt n) other otherwise)
    (lone : leadingWord (other ++ (" end".toList ++ rest)) ≠ "if") (ends : Delimited rest) :
    readClauses expr stmt n (m + 1)
        ("if ".toList ++ (text ++ (" then ".toList ++ (block ++ (" else ".toList ++
          (other ++ (" end".toList ++ rest))))))) =
      some (([(e, body)], some otherwise), rest) := by
  have first := condition (" then ".toList ++
    (block ++ (" else ".toList ++ (other ++ (" end".toList ++ rest))))) (closed_cons (by decide) _)
  have second := stmts _ (blockEnds_else (other ++ (" end".toList ++ rest)))
  have third := otherStmts _ (blockEnds_end ends)
  simp only [readClauses, expect_append, first, second, third, if_neg lone, Option.bind_eq_bind,
    Option.bind_some]
  rfl

theorem readClauses_more {more : List Char} {c : Clauses × Option (List Stmt)}
    (word : leadingWord more = "if") (clauses : readClauses expr stmt n m more = some (c, rest)) :
    readClauses expr stmt n (m + 1)
        ("if ".toList ++ (text ++ (" then ".toList ++ (block ++ (" else ".toList ++ more))))) =
      some (((e, body) :: c.1, c.2), rest) := by
  have first :=
    condition (" then ".toList ++ (block ++ (" else ".toList ++ more))) (closed_cons (by decide) _)
  have second := stmts _ (blockEnds_else more)
  simp only [readClauses, expect_append, first, second, if_pos word, clauses, Option.bind_eq_bind,
    Option.bind_some]
  rfl

end

end

/-! ### Which branch is taken -/

theorem readExpr_of_opens (h : opens c) (sign : c ≠ '@' ∧ c ≠ '-') (fuel : Nat) (cs : List Char) :
    readExpr (fuel + 1) (c :: cs) = (readBase fuel (c :: cs)).bind
      fun r => readHops fuel r.1 r.2 := by
  rw [readExpr, leadingWord_of_opens h, if_neg (by decide), if_neg (by decide)]
  · exact fun _ here => sign.1 (List.cons.inj here).1
  · exact fun _ here => sign.2 (List.cons.inj here).1

theorem not_opens_of_isWord (word : isWord w) (here : w.toList ++ rest = c :: cs) :
    opens c = false := by
  simp only [isWord, Bool.and_eq_true] at word
  obtain ⟨d, ds, chars⟩ := exists_cons_of_isName word.1
  rw [chars, List.cons_append] at here
  rw [← (List.cons.inj here).1]
  simpa [chars] using word.2

theorem append_ne_of_isWord (word : isWord w) (h : opens c) (rest cs : List Char) :
    w.toList ++ rest ≠ c :: cs := by
  intro here
  rw [not_opens_of_isWord word here] at h
  exact absurd h (by decide)

theorem readExpr_of_word (word : isWord w) (ends : Delimited rest)
    (prefixed : w ≠ "new" ∧ w ≠ "not") (fuel : Nat) :
    readExpr (fuel + 1) (w.toList ++ rest) =
      (readBase fuel (w.toList ++ rest)).bind fun r => readHops fuel r.1 r.2 := by
  rw [readExpr, leadingWord_append word ends, if_neg prefixed.1, if_neg prefixed.2]
  all_goals exact append_ne_of_isWord word (by decide) rest

theorem readBase_of_word (word : isWord w) (ends : Delimited rest) (fuel : Nat) :
    readBase (fuel + 1) (w.toList ++ rest) =
      readWord (readFunction (readExpr fuel) (readStmt fuel) fuel) w rest := by
  simp only [isWord, Bool.and_eq_true] at word
  have some_name : w ≠ "" := by
    rintro rfl
    exact absurd word.1 (by decide)
  rw [readBase, leadingWord_append (by simp [isWord, word]) ends, if_neg some_name,
    spanName_append word.1 ends]
  all_goals exact append_ne_of_isWord (by simp [isWord, word]) (by decide) rest

theorem readWord_of_not_mem (h : keywords.contains w = false)
    (function : List Char → Option (Expr × List Char)) (rest : List Char) :
    readWord function w rest = some (.identifier w default, rest) := by
  unfold readWord
  split
  · exact absurd h (by decide)
  · exact absurd h (by decide)
  · exact absurd h (by decide)
  · exact absurd h (by decide)
  · rfl

theorem readBase_digit (d : Digit) (cs : List Char) (fuel : Nat) :
    readBase (fuel + 1) (d.toChar :: cs) =
      some (.number (readNumber (d.toChar :: cs)).1 default, (readNumber (d.toChar :: cs)).2) := by
  have sign : ∀ d : Digit, d.toChar ∉ "\"([\x7b<".toList := by decide
  rw [readBase, leadingWord_of_opens (opens_digit d), if_pos rfl]
  all_goals
    intro _ here
    exact sign d (by rw [(List.cons.inj here).1]; decide)

theorem noDigit_append (name : isName n) (h : Numeral.NoDigit n.toList) (rest : List Char) :
    Numeral.NoDigit (n.toList ++ rest) := by
  obtain ⟨c, cs, chars⟩ := exists_cons_of_isName name
  rw [chars]
  rintro _ _ ⟨⟩
  exact h c cs chars

end IdReader

end ScriptInference
