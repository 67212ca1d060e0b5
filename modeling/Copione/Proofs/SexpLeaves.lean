import Copione.Proofs.FloatTexts
import Copione.Proofs.Grammar
import Copione.Proofs.LexicalGrammar
import Copione.Proofs.SexpTrees
/-!
# Leaves of S-expressions

A name or a constant stands in an S-expression as one atom, and no other name or constant has its text:
the first character tells texts and numbers from words, a point or an exponent tells a float from an
integer, and no name is a keyword.
-/
namespace Copione

open Numeral

theorem toList_int64 (n : Int64) :
    (toString n).toList = if 0 ≤ n.toInt then Nat.toDigits 10 n.toInt.toNat
      else '-' :: Nat.toDigits 10 (-n.toInt).toNat := by
  change n.toInt.repr.toList = _
  rw [Int.repr_eq_if]
  split
  · rw [Nat.toList_repr]
  · rw [String.toList_append, Nat.toList_repr]
    rfl

private theorem int64_eq_cons (n : Int64) : ∃ c rest, (toString n).toList = c :: rest ∧
    (isDigit c ∨ c = '-') := by
  rw [toList_int64]
  split
  · obtain ⟨c, rest, hdigits⟩ := List.exists_cons_of_ne_nil (Nat.toDigits_ne_nil (b := 10) (n := n.toInt.toNat))
    exact ⟨c, rest, hdigits, .inl (isDigit_of_mem_toDigits (hdigits ▸ List.mem_cons_self))⟩
  · exact ⟨'-', _, rfl, .inr rfl⟩

private theorem mem_int64 {n : Int64} {c : Char} (hc : c ∈ (toString n).toList) :
    isDigit c ∨ c = '-' := by
  rw [toList_int64] at hc
  split at hc
  · exact .inl (isDigit_of_mem_toDigits hc)
  · rcases List.mem_cons.mp hc with rfl | hc
    · exact .inr rfl
    · exact .inl (isDigit_of_mem_toDigits hc)

private theorem int64_injective {n n' : Int64} (h : toString n = toString n') : n = n' := by
  have hunsigned {m : Nat} {rest : List Char} : Nat.toDigits 10 m ≠ '-' :: rest := fun hdigits => by
    cases isDigit_of_mem_toDigits (hdigits ▸ List.mem_cons_self)
  have htexts := congrArg String.toList h
  rw [toList_int64, toList_int64] at htexts
  refine Int64.toInt_inj.mp ?_
  split at htexts <;> split at htexts
  · have hvalue := congrArg toNat htexts
    simp only [toNat_toDigits] at hvalue
    omega
  · exact absurd htexts hunsigned
  · exact absurd htexts.symm hunsigned
  · have hvalue := congrArg toNat (List.cons.inj htexts).2
    simp only [toNat_toDigits] at hvalue
    omega

namespace Word

def text : Word → String
  | .mark kind => kind.text
  | .name n => n
  | .constant value => value.sexp

/-- The word can be told from its text: a name is no keyword, a float is finite, and a string has no quote
in it. -/
def Legible : Word → Prop
  | .name n => Lexical n.toList (.token .identifier)
  | .constant (.float x) => (Binary.ofFloat x).IsFinite
  | .constant (.str s) => '"' ∉ s.toList
  | _ => True

def IsLeaf : Word → Prop
  | .mark kind => kind = .questo
  | _ => True

def kindOf (text : String) : TokenKind :=
  match text.toList.head? with
  | some '"' => .string
  | some c =>
    if isDigit c || c == '-' then
      if text.toList.contains '.' || text.toList.contains 'e' then .float else .integer
    else (TokenKind.keyword? text).getD .identifier
  | none => .eof

variable {w w' : Word} {text : String}

private theorem identifier_spelled {text : List Char} (h : Lexical text (.token .identifier)) :
    ∃ c more, text = c :: more ∧ Scanner.isNameStart c ∧ (∀ d ∈ more, Scanner.isNamePart d) ∧
      TokenKind.keyword? (String.ofList text) = none := by
  cases h with
  | symbol hkind => exact absurd hkind (by decide)
  | keyword hkind => exact absurd hkind (by decide)
  | @identifier c more hc hmore hkeyword =>
    exact ⟨c, more, rfl, by simpa [Scanner.isNameStart] using hc,
      fun d hd => by simpa [Scanner.isNamePart] using hmore d hd, Lexeme.keyword?_eq_none hkeyword⟩

private theorem kindOf_cons {c : Char} {rest : List Char} (htext : text.toList = c :: rest)
    (hquote : c ≠ '"') :
    kindOf text = if isDigit c || c == '-' then
        if '.' ∈ text.toList ∨ 'e' ∈ text.toList then .float else .integer
      else (TokenKind.keyword? text).getD .identifier := by
  rw [kindOf, htext, List.head?_cons]
  split
  · next heq => exact absurd (Option.some.inj heq) hquote
  · next d _ heq =>
    obtain rfl := Option.some.inj heq
    simp only [Bool.or_eq_true, List.contains_iff_mem]
  · next heq => cases heq

private theorem kindOf_numeral {c : Char} {rest : List Char} (htext : text.toList = c :: rest)
    (hc : isDigit c ∨ c = '-') :
    kindOf text = if '.' ∈ text.toList ∨ 'e' ∈ text.toList then .float else .integer := by
  have hquote : c ≠ '"' := by
    rintro rfl
    rcases hc with hc | hc <;> cases hc
  rw [kindOf_cons htext hquote, if_pos (by simpa using hc)]

private theorem kindOf_text (h : w.Legible) (hleaf : w.IsLeaf) : kindOf w.text = w.kind := by
  match w with
  | .mark kind =>
    obtain rfl : kind = .questo := hleaf
    decide
  | .name n =>
    obtain ⟨c, more, htext, hc, -, hkeyword⟩ := identifier_spelled h
    have hquote : c ≠ '"' := by
      rintro rfl
      cases hc
    have hword : (isDigit c || c == '-') = false := by
      rw [Lexeme.not_isDigit_of_isNameStart hc, Bool.false_or, beq_eq_false_iff_ne]
      rintro rfl
      cases hc
    rw [String.ofList_toList] at hkeyword
    rw [text, kindOf_cons htext hquote, hword, hkeyword]
    rfl
  | .constant .null => decide
  | .constant (.bool b) => cases b <;> decide
  | .constant (.int n) =>
    obtain ⟨c, rest, htext, hc⟩ := int64_eq_cons n
    refine (kindOf_numeral htext hc).trans (if_neg ?_)
    rintro (hmem | hmem) <;> rcases mem_int64 hmem with hd | hd <;> cases hd
  | .constant (.float x) =>
    obtain ⟨c, rest, htext, hc⟩ := Literal.floatStyle.write_eq_cons h
    exact (kindOf_numeral htext hc).trans (if_pos (FloatStyle.marked_write h))
  | .constant (.str s) =>
    have htext : (text (.constant (.str s))).toList = '"' :: (s.toList ++ ['"']) := by
      simp [text, Constant.sexp]
    rw [kindOf, htext]
    rfl

theorem text_injective (h : w.Legible) (h' : w'.Legible) (hleaf : w.IsLeaf) (hleaf' : w'.IsLeaf)
    (htext : w.text = w'.text) : w = w' := by
  have hkind : w.kind = w'.kind := by rw [← kindOf_text h hleaf, htext, kindOf_text h' hleaf']
  -- words of different kinds are told apart; of one kind there are several names, numbers and strings only
  rcases w with kind | n | _ | (_ | _) | n | x | s <;>
    rcases w' with kind' | n' | _ | (_ | _) | n' | x' | s'
  all_goals try subst hleaf
  all_goals try subst hleaf'
  all_goals cases hkind
  all_goals try rfl
  case name.name.refl => exact congrArg name htext
  case constant.int.constant.int.refl =>
    obtain rfl := int64_injective (show toString n = toString n' from htext)
    rfl
  case constant.float.constant.float.refl =>
    obtain rfl := Literal.floatStyle.write_injective h h' htext
    rfl
  case constant.str.constant.str.refl =>
    have hquoted : "\"" ++ s ++ "\"" = "\"" ++ s' ++ "\"" := htext
    rw [String.append_left_inj, String.append_right_inj] at hquoted
    rw [hquoted]

theorem Legible.atomic (h : w.Legible) (hleaf : w.IsLeaf) : Sexp.Atomic w.text.toList := by
  have hdigit {c : Char} (hc : isDigit c) : c ∉ Sexp.marks := Sexp.notMem_marks (by decide) hc
  match w with
  | .mark kind =>
    obtain rfl : kind = .questo := hleaf
    exact .of_all (by decide) (by decide)
  | .name n =>
    obtain ⟨c, more, htext, hc, hmore, -⟩ := identifier_spelled h
    refine .word (by simp [text, htext]) fun d hd => Sexp.notMem_marks (p := Scanner.isNamePart) (by decide) ?_
    rw [text, htext] at hd
    rcases List.mem_cons.mp hd with rfl | hd
    · exact Lexeme.isNamePart_of_isNameStart hc
    · exact hmore d hd
  | .constant .null => exact .of_all (by decide) (by decide)
  | .constant (.bool b) => cases b <;> exact .of_all (by decide) (by decide)
  | .constant (.int n) =>
    obtain ⟨c, rest, htext, -⟩ := int64_eq_cons n
    refine .word (by simp [text, Constant.sexp, htext]) fun d hd => ?_
    rcases mem_int64 hd with hd | rfl
    · exact hdigit hd
    · decide
  | .constant (.float x) =>
    obtain ⟨c, rest, htext, -⟩ := Literal.floatStyle.write_eq_cons h
    refine .word (by simp [text, Constant.sexp, htext]) fun d hd => ?_
    rcases FloatStyle.mem_write h hd with hd | hd
    · exact hdigit hd
    · exact Sexp.notMem_marks (p := ['.', 'e', '-', '+'].contains) (by decide) (List.contains_iff_mem.mpr hd)
  | .constant (.str s) =>
    have htext : (text (.constant (.str s))).toList = '"' :: s.toList ++ ['"'] := by
      simp [text, Constant.sexp]
    rw [htext]
    exact .quoted h

end Word
end Copione
