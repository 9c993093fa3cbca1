import ScriptInference.Proofs.Hashing.Congruence
import ScriptInference.Proofs.Hashing.Transparency
import Mathlib.Logic.Function.Basic

/-!
# Histories of hashing

Any number of hashers work side by side. Each has a string cache of its own capacity; the memos
belong to the trees, so that what one hasher has filled in is read by all others, and a node may be
asked for after some of its parts only. Nodes of a tree are told apart by their spans; two trees of
the same shape have separate memos.

A call asks one hasher for the checksum of a text, or for the hash or the id of a node of one tree.
One call on a bench whose caches and memos are faithful gives the answer of the plain definitions
and leaves a faithful bench behind, hence so does every history of calls.
-/

namespace ScriptInference.Hasher

inductive Request where
  | text (s : String)
  | hash (e : Expr)
  | id (e : Expr)

inductive Answer where
  | hash (value : UInt32)
  | id (text : String)
  deriving DecidableEq

namespace Request

def ask : Request → HashM Answer
  | text s => return .hash (← Hasher.text s)
  | hash e => return .hash (← Hasher.hash e)
  | id e => return .id (← Hasher.id e)

/-- The answer without cache and memo. -/
def plain : Request → Answer
  | text s => .hash (Crc32.ofText s)
  | hash e => .hash e.hash
  | id e => .id e.id

/-- The request for the normal form of the same tree. -/
def normal : Request → Request
  | text s => text s
  | hash e => hash e.normal
  | id e => id e.normal

theorem plain_normal (r : Request) : r.normal.plain = r.plain := by
  cases r with
  | text s => rfl
  | hash e => simp only [normal, plain, e.keys_normal.1]
  | id e => simp only [normal, plain, e.keys_normal.2]

theorem computes_ask (r : Request) : Computes r.ask r.plain := by
  cases r with
  | text s => exact (computes_text s).bind (.pure _)
  | hash e => exact (computes_hash e).bind (.pure _)
  | id e => exact (computes_id e).bind (.pure _)

end Request

structure Call (ι τ : Type) where
  hasher : ι
  tree : τ
  request : Request

/-- The caches of some hashers and the memos of some trees. -/
structure Bench (ι τ : Type) where
  caches : ι → RecencyCache String UInt32
  memos : τ → Memo

namespace Bench
variable {ι τ : Type}

def new (capacity : ι → Nat) : Bench ι τ := ⟨fun i => .new (capacity i), fun _ => {}⟩

/-- Every hasher together with every memo is faithful. -/
def Faithful (b : Bench ι τ) : Prop := ∀ i t, Hasher.Faithful ⟨b.caches i, b.memos t⟩

theorem faithful_new (capacity : ι → Nat) : (new capacity : Bench ι τ).Faithful := by
  intro i t
  exact Hasher.faithful_new (capacity i)

variable [DecidableEq ι] [DecidableEq τ]

/-- The hasher works with its own cache and with the memo of the tree. -/
def serve (b : Bench ι τ) (c : Call ι τ) : Answer × Bench ι τ :=
  let r := c.request.ask.run ⟨b.caches c.hasher, b.memos c.tree⟩
  (r.1, ⟨Function.update b.caches c.hasher r.2.strings, Function.update b.memos c.tree r.2.memo⟩)

def run (b : Bench ι τ) : List (Call ι τ) → List Answer × Bench ι τ
  | [] => ([], b)
  | c :: calls =>
    let r := b.serve c
    let rest := r.2.run calls
    (r.1 :: rest.1, rest.2)

/-- A cache and a memo stay faithful separately, whichever of the two the call has changed. -/
theorem Faithful.serve {b : Bench ι τ} (h : b.Faithful) (c : Call ι τ) :
    (b.serve c).1 = c.request.plain ∧ (b.serve c).2.Faithful := by
  obtain ⟨after, ran, faithful⟩ := c.request.computes_ask _ (h c.hasher c.tree)
  unfold Bench.serve
  rw [ran]
  refine ⟨rfl, fun i t => ⟨?_, ?_, ?_⟩⟩
  · by_cases same : i = c.hasher
    · subst same
      simpa using faithful.strings
    · simpa [same] using (h i t).strings
  · by_cases same : t = c.tree
    · subst same
      simpa using faithful.hashes
    · simpa [same] using (h i t).hashes
  · by_cases same : t = c.tree
    · subst same
      simpa using faithful.ids
    · simpa [same] using (h i t).ids

theorem Faithful.run {b : Bench ι τ} (h : b.Faithful) (calls : List (Call ι τ)) :
    (b.run calls).1 = calls.map (·.request.plain) ∧ (b.run calls).2.Faithful := by
  induction calls generalizing b with
  | nil => exact ⟨rfl, h⟩
  | cons c calls ih =>
    obtain ⟨answer, faithful⟩ := h.serve c
    obtain ⟨answers, faithful⟩ := ih faithful
    refine ⟨?_, faithful⟩
    rw [List.map_cons, ← answer, ← answers]
    rfl

/-- Every history gets the plain answers. Hence two histories that ask for the same structures one
after the other get the same answers, whatever the capacities, the hashers and the trees. -/
theorem run_eq_plain (capacity : ι → Nat) (calls : List (Call ι τ)) :
    ((new capacity : Bench ι τ).run calls).1 = calls.map (·.request.plain) ∧
      ∀ (capacity' : ι → Nat) (calls' : List (Call ι τ)),
        calls'.map (·.request.normal) = calls.map (·.request.normal) →
        ((new capacity' : Bench ι τ).run calls').1 = ((new capacity : Bench ι τ).run calls).1 := by
  have plain : ∀ (capacity : ι → Nat) (calls : List (Call ι τ)),
      ((new capacity : Bench ι τ).run calls).1 = calls.map (·.request.plain) :=
    fun capacity calls => ((faithful_new capacity).run calls).1
  refine ⟨plain capacity calls, fun capacity' calls' same => ?_⟩
  have shapes : ∀ calls : List (Call ι τ),
      calls.map (·.request.plain) = (calls.map (·.request.normal)).map Request.plain := by
    intro calls
    simp only [List.map_map, Function.comp_def, Request.plain_normal]
  rw [plain, plain, shapes, same, ← shapes]

/-- Two hashers fill the memo of one tree from a part of it upwards; one hasher with room for a
single string works on a copy of the tree that stands elsewhere and is spelled differently. -/
theorem run_eq_plain_shared :
    let a (p : Span) : Expr := .identifier "a" p
    let short : Expr := .member (a default) "b" default
    let long : Expr := .index (a ⟨7, 8, 2, "n"⟩) (.string "b" ⟨9, 12, 2, "m"⟩) ⟨7, 13, 2, "k"⟩
    let shared : List (Call Nat Nat) :=
      [⟨0, 0, .hash (a default)⟩, ⟨1, 0, .hash short⟩, ⟨1, 0, .text "b"⟩, ⟨0, 0, .id short⟩]
    let alone : List (Call Nat Nat) :=
      [⟨0, 1, .hash (a ⟨7, 8, 2, "n"⟩)⟩, ⟨0, 1, .hash long⟩, ⟨0, 0, .text "b"⟩, ⟨0, 1, .id long⟩]
    ((new fun _ => 50 : Bench Nat Nat).run shared).1 =
        [.hash (a default).hash, .hash short.hash, .hash (Crc32.ofText "b"), .id short.id] ∧
      alone.map (·.request.normal) = shared.map (·.request.normal) ∧
      ((new fun _ => 1 : Bench Nat Nat).run alone).1 =
      ((new fun _ => 50 : Bench Nat Nat).run shared).1 := by
  intro a short long shared alone
  obtain ⟨plain, same⟩ := run_eq_plain (fun _ => 50) shared
  exact ⟨plain, rfl, same (fun _ => 1) alone rfl⟩

end Bench

end ScriptInference.Hasher
