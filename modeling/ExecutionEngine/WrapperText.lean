import ExecutionEngine.ResultFraming
import ExecutionEngine.CSignature
import ExecutionEngine.Substitution

/-!
# The text of a wrapper

C++, Rust and Go fill a template by replacing its placeholders one after the other. C++ and
Rust then look for two texts in what they have made and refuse it when they find one.
-/
namespace ExecutionEngine.WrapperText
open CSignature Substitution ResultFraming

/-- What `compile` looks for in a wrapper. -/
def leftovers : List Text := [text "__PLACEHOLDER__", text "__FUNCTION_"]

/-- `"__PLACEHOLDER__" in wrapped_code or "__FUNCTION_" in wrapped_code` -/
def checkFires (wrapped : Text) : Bool := leftovers.any fun part => PyStr.hasPart part wrapped

theorem checkFires_eq_false_iff {wrapped : Text} :
    checkFires wrapped = false ↔ ∀ part ∈ leftovers, ¬ part <:+: wrapped := by
  rw [checkFires, List.any_eq_false]
  exact forall₂_congr fun part _ => not_congr hasPart_iff

/-- Neither text occurs. -/
def Unflagged (s : Text) : Prop := ∀ part ∈ leftovers, ¬ part <:+: s

/-- The wrapper is the template with every placeholder replaced by its own text, and the code
stands in it as it was written. -/
structure Embedded (code filled wrapped : Text) : Prop where
  verbatim : code <:+: wrapped
  replaced : wrapped = filled

/-- And `compile` accepts it. -/
structure Embeds (code filled wrapped : Text) : Prop extends Embedded code filled wrapped where
  accepted : checkFires wrapped = false

section
variable {η : Type}

/-- Lines that stay, each after a line feed. -/
def lines (ls : List String) : List (CodePoint × Cell η CodePoint) :=
  ls.map fun line => (ch '\n', .fixed (text line))

def fixedTexts (cells : List (Cell η CodePoint)) : List Text :=
  cells.filterMap fun
    | .fixed t => some t
    | .slot _ => none

theorem mem_fixedTexts {cells : List (Cell η CodePoint)} {t : Text} :
    t ∈ fixedTexts cells ↔ .fixed t ∈ cells := by
  rw [fixedTexts, List.mem_filterMap]
  constructor
  · rintro ⟨c, hc, h⟩
    cases c with
    | fixed u =>
      obtain rfl := Option.some.inj h
      exact hc
    | slot i => cases h
  · exact fun h => ⟨_, h, rfl⟩

/-- The check looks into every slot by itself. -/
theorem checkFires_fill_iff {T : Template η CodePoint}
    (hmarks : ∀ p ∈ T.rest, ∀ part ∈ leftovers, p.1 ∉ part)
    (hfixed : ∀ t ∈ fixedTexts T.cells, Unflagged t) (f : η → Text) :
    checkFires (T.fill f) = false ↔ ∀ i, .slot i ∈ T.cells → Unflagged (f i) := by
  rw [checkFires_eq_false_iff]
  constructor
  · intro h i hi part hpart hin
    exact h part hpart (hin.trans (text_infix_joined hi f))
  · intro h part hpart hin
    obtain ⟨c, hc, hin⟩ := (infix_joined_iff (fun q hq => hmarks q hq part hpart) f).mp hin
    cases c with
    | fixed t => exact hfixed t (mem_fixedTexts.mpr hc) part hpart hin
    | slot i => exact h i hc part hpart hin

end

theorem ofChar_injective : Function.Injective PyStr.ofChar := by
  intro c d h
  have hval : (PyStr.ofChar c).val = (PyStr.ofChar d).val := by rw [h]
  exact Char.ext (UInt32.toNat_inj.mp hval)

theorem underscore_not_mem_digits (n : ℕ) : ch '_' ∉ text (toString n) := by
  intro h
  obtain ⟨c, hc, heq⟩ := List.mem_map.mp h
  rw [ofChar_injective heq, Nat.toString_eq_ofList_toDigits, String.toList_ofList] at hc
  exact Nat.underscore_not_in_toDigits hc

/-- A part with an underscore among other characters is not found in the name of an
argument. -/
theorem not_infix_argName {part : Text} (hunderscore : ch '_' ∈ part) (ha : ch 'a' ∉ part)
    (hlength : 1 < part.length) (n : ℕ) : ¬ part <:+: text "_a" ++ text (toString n) := by
  have hsplit : text "_a" ++ text (toString n) = [ch '_'] ++ ch 'a' :: text (toString n) := rfl
  rw [hsplit, infix_append_cons_iff ha]
  rintro (hin | hin)
  · have := hin.length_le
    simp only [List.length_singleton] at this
    omega
  · exact underscore_not_mem_digits n (hin.subset hunderscore)

end ExecutionEngine.WrapperText
