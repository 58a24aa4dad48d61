import FlatXor.Declarations
import Mathlib.Data.List.Basic

/-!
# How declarations are spelled

The characters of the definitions that the C format consists of: keyword and name, the
length in brackets where there is one, and the entries in braces.
-/
namespace FlatXor

@[simp] lemma toString_text (text : String) : toString text = text := rfl

lemma toList_braced (items : List String) :
    (braced items).toList =
      '\x7b' :: ' ' :: ([',', ' '].intercalate (items.map String.toList) ++ [' ', '\x7d']) := by
  simp [braced, String.toList_intercalate]

namespace CodeTable

lemma toList_name (table : CodeTable) :
    table.name.toList = Nat.toDigits 10 table.size ++
      '_' :: (Nat.toDigits 10 table.params.parities ++
        '_' :: Nat.toDigits 10 table.params.hammingDistance) := by
  simp [name, nameOf]

lemma toList_arrayName (table : CodeTable) (kind : ArrayKind) :
    (table.arrayName kind).toList = "g_".toList ++
      (table.name.toList ++ ("_hd_code_".toList ++ (kind.label.toList ++ "_bms".toList))) := by
  simp [arrayName]

lemma toList_arrayDefinition (d : Declaration) (table : CodeTable) (kind : ArrayKind) :
    (table.arrayDefinition d kind).toList = d.keyword.toList ++
      ' ' :: ((table.arrayName kind).toList ++
        ("[] = ".toList ++ ((braced (table.entries kind)).toList ++ [';', '\n']))) := by
  simp [arrayDefinition]

end CodeTable

namespace CodeFamily

/-- The name of an index. -/
def indexName (f : CodeFamily) (kind : ArrayKind) : String :=
  s!"hd{f.params.hammingDistance}_m{f.params.parities}_{kind.label}"

lemma toList_indexName (f : CodeFamily) (kind : ArrayKind) :
    (f.indexName kind).toList = "hd".toList ++ (Nat.toDigits 10 f.params.hammingDistance ++
      ("_m".toList ++ (Nat.toDigits 10 f.params.parities ++ '_' :: kind.label.toList))) := by
  simp [indexName]

lemma toList_indexDefinition (f : CodeFamily) (kind : ArrayKind) :
    (f.indexDefinition kind).toList = "static unsigned int *".toList ++
      ' ' :: ((f.indexName kind).toList ++ ('[' :: (Nat.toDigits 10 (f.lastSize + 1) ++
        ("] = ".toList ++ ((braced (f.indexSlots kind)).toList ++ [';', '\n']))))) := by
  rw [toList_indexName]
  delta indexDefinition
  simp

end CodeFamily

end FlatXor
