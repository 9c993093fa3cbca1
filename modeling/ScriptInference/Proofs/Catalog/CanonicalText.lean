import ScriptInference.Catalog.Signature
import ScriptInference.Proofs.Json.RoundTrip

/-!
# The canonical text of a definition

Definitions are told apart by the checksum of a JSON text. Up to the checksum nothing is lost: the
text determines the type, the arguments and the returns of a definition, whatever characters their
strings contain. A text is read back to the tree that it was written from, so equal texts have equal
trees, and the trees put the parts of a definition at fixed places. The description is not written
at all.
-/

namespace ScriptInference

namespace Json

theorem str_inj {s t : String} : str s = str t ↔ s = t := by simp [str]

theorem strings_inj {l m : List String} : strings l = strings m ↔ l = m := by
  rw [strings, strings, Json.arr.injEq]
  exact (List.map_injective_iff.2 fun _ _ => str_inj.1).eq_iff

theorem leaves_strings {ok : Numeral → Prop} (l : List String) : (strings l).Leaves ok := by
  rw [strings, leaves_arr]
  intro j hj
  obtain ⟨s, -, rfl⟩ := List.mem_map.1 hj
  exact leaves_str s

end Json

open Json

theorem Argument.toJson_inj {a b : Argument} : a.toJson = b.toJson ↔ a = b := by
  cases a
  cases b
  simp [Argument.toJson, object, str_inj, strings_inj]

theorem Argument.leaves_toJson {ok : Numeral → Prop} (a : Argument) : a.toJson.Leaves ok := by
  simp [Argument.toJson, leaves_object, leaves_str, leaves_strings, Leaves]

namespace Definition

theorem leaves_shape {ok : Numeral → Prop} (d : Definition) :
    (Json.object d.shapeFields).Leaves ok := by
  have arguments : (Json.arr (d.arguments.map Argument.toJson)).Leaves ok := by
    rw [leaves_arr]
    intro j hj
    obtain ⟨a, -, rfl⟩ := List.mem_map.1 hj
    exact a.leaves_toJson
  simp [shapeFields, leaves_object, leaves_str, leaves_strings, arguments]

theorem shape_inj {d e : Definition} :
    Json.object d.shapeFields = Json.object e.shapeFields ↔
    d.type = e.type ∧ d.arguments = e.arguments ∧ d.returns = e.returns := by
  have arguments : d.arguments.map Argument.toJson = e.arguments.map Argument.toJson ↔
      d.arguments = e.arguments :=
    (List.map_injective_iff.2 fun _ _ => Argument.toJson_inj.1).eq_iff
  simp [shapeFields, object, str_inj, strings_inj, arguments]

/-- The text under which definitions are deduplicated tells their type, their arguments in order,
each with its label, its types in order and whether it may be left out, and their returns in order.
The description has no influence on the content hash. -/
theorem canonicalText_eq_iff (d e : Definition) :
    (d.canonicalText = e.canonicalText ↔
        d.type = e.type ∧ d.arguments = e.arguments ∧ d.returns = e.returns) ∧
      contentHash d = Crc32.ofText d.canonicalText ∧
      ∀ description : Option String, contentHash { d with description } = contentHash d := by
  refine ⟨?_, rfl, fun _ => rfl⟩
  rw [canonicalText, canonicalText, text_inj d.leaves_shape e.leaves_shape, shape_inj]

-- A quotation mark, a backslash, a line feed and another control character in a type.
example : (value "\"\\\n\x01é").canonicalText =
    "\x7b\"type\":\"\\\"\\\\\\n\\u0001é\",\"arguments\":[],\"returns\":[]\x7d" := by
  cbv

end Definition

end ScriptInference
