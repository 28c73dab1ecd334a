import ExecutionEngine.CppEmbedding
import ExecutionEngine.RustEmbedding
import ExecutionEngine.GoEmbedding

/-!
# Code that is embedded as it was written

What the three executors make of a signature they can read holds the code unchanged, and is
accepted, where no text that is replaced later or looked for stands in the wrong place.
-/
namespace ExecutionEngine.VerbatimCode
open Pipeline TextScan CSignature RegexSignature Scoping GoBindings WrapperText

/-- C++ and Rust embed the code, and accept it, exactly when it is harmless. Go looks for
nothing in the end; what is left after its imports are taken out is embedded where that is
harmless. -/
theorem code_embedded_iff (words : WordClass) (code functionName : Text) :
    (∀ sig, parseSignature words code functionName = .ok sig →
      ∃ wrapper, CppEmbedding.generate words code functionName = .ok wrapper ∧
        (Embeds code (CppEmbedding.filled words code functionName sig) wrapper ↔
          CppEmbedding.Harmless words code functionName sig)) ∧
    (∀ support sig, Rust.signature functionName code = .ok sig →
      ∃ wrapper, RustEmbedding.generate words support code functionName = .ok wrapper ∧
        (Embeds code (RustEmbedding.filled words code functionName sig support) wrapper ↔
          RustEmbedding.Harmless code functionName sig)) ∧
    ∀ g support sig bounds call, Go.signature functionName code = .ok sig →
      sig.1.mapM bound = .ok bounds →
      callLines functionName sig.2 (sig.1.map Prod.fst) = .ok call →
      ∃ wrapper, GoEmbedding.generate words g support code functionName = .ok wrapper ∧
        (GoEmbedding.Harmless functionName (GoEmbedding.splitImports words code).1
            (GoEmbedding.splitImports words code).2 bounds →
          Embedded (GoEmbedding.splitImports words code).2
            (GoEmbedding.filled support functionName
              ⟨(GoEmbedding.splitImports words code).1, (GoEmbedding.splitImports words code).2,
                paramLines g (skipsPos sig.1) bounds, call⟩) wrapper) := by
  refine ⟨fun sig hsig => ?_, fun support sig hsig => ?_, ?_⟩
  · refine ⟨_, ?_, CppEmbedding.embeds_iff words code functionName sig⟩
    rw [CppEmbedding.generate, CppWrapper.generateWrapper, hsig]
    rfl
  · refine ⟨_, ?_, RustEmbedding.embeds_iff words code functionName sig support hsig⟩
    rw [RustEmbedding.generate, hsig]
    rfl
  · intro g support sig bounds call hsig hbounds hcall
    refine ⟨_, ?_, GoEmbedding.embedded_of_harmless g support hbounds hcall⟩
    have hparts : GoEmbedding.partsOf words g code functionName =
        .ok ⟨(GoEmbedding.splitImports words code).1, (GoEmbedding.splitImports words code).2,
          paramLines g (skipsPos sig.1) bounds, call⟩ := by
      rw [GoEmbedding.partsOf, hsig]
      change (sig.1.mapM bound >>= _) = _
      rw [hbounds]
      change (callLines functionName sig.2 (sig.1.map Prod.fst) >>= _) = _
      rw [hcall]
      rfl
    rw [GoEmbedding.generate, hparts]
    rfl

def cppText : Text := text "int twice(int a) \x7b return 2 * a; \x7d"

def cppSignature : CSignature.Signature :=
  ⟨text "int", [⟨text "int", text "a", text "int a"⟩], text "int a", false⟩

def rustText : Text := text "fn twice(a: &mut i32) \x7b *a *= 2; \x7d"

def rustSignature : List (Text × Text) × Text := ([(text "&mut i32", text "a")], text "()")

def rustSupport : RustEmbedding.Support where
  judge := text "mod __judge \x7b \x7d"
  main := text "fn main() \x7b \x7d"
  plain := by decide +kernel

def goText : Text := text "package main\nfunc twice(a int) int \x7b return 2 * a \x7d"

def goSignature : List (Text × Text) × List Text := ([(text "a", text "int")], [text "int"])

def goBounds : List Bound := [⟨text "a", text "int", .other⟩]

def goSupport : GoEmbedding.Support where
  helpers := text "func pickArg() \x7b \x7d"
  entry := text "func main() \x7b execute("
  rest := text ") \x7d"
  plain := by
    intro t ht h
    revert t
    cases h <;> decide +kernel

theorem code_embedded_twice :
    (∃ wrapper, CppEmbedding.generate asciiWords cppText (text "twice") = .ok wrapper ∧
      cppText <:+: wrapper ∧ checkFires wrapper = false) ∧
    (∃ wrapper, RustEmbedding.generate asciiWords rustSupport rustText (text "twice") =
      .ok wrapper ∧ rustText <:+: wrapper ∧ checkFires wrapper = false) ∧
    ∃ wrapper, GoEmbedding.generate asciiWords GoHygiene.wordTypes goSupport goText
      (text "twice") = .ok wrapper ∧
        text "\nfunc twice(a int) int \x7b return 2 * a \x7d" <:+: wrapper := by
  have hcpp : parseSignature asciiWords cppText (text "twice") = .ok cppSignature :=
    eq_ok_of_toOption (by decide +kernel)
  have hrust : Rust.signature (text "twice") rustText = .ok rustSignature :=
    eq_ok_of_toOption (by decide +kernel)
  have hgo : Go.signature (text "twice") goText = .ok goSignature :=
    eq_ok_of_toOption (by decide +kernel)
  have hbounds : goSignature.1.mapM bound = .ok goBounds := eq_ok_of_toOption (by decide +kernel)
  have hbody : GoEmbedding.splitImports asciiWords goText =
      ([], text "\nfunc twice(a int) int \x7b return 2 * a \x7d") := by decide +kernel
  refine ⟨?_, ?_, ?_⟩
  · obtain ⟨wrapper, hwrapper, hiff⟩ :=
      (code_embedded_iff asciiWords cppText (text "twice")).1 cppSignature hcpp
    have hembeds := hiff.mpr ⟨fun h _ => by cases h <;> decide +kernel,
      by simp only [Unflagged]; decide +kernel, by decide +kernel,
      by simp only [Unflagged]; decide +kernel⟩
    exact ⟨wrapper, hwrapper, hembeds.verbatim, hembeds.accepted⟩
  · obtain ⟨wrapper, hwrapper, hiff⟩ :=
      (code_embedded_iff asciiWords rustText (text "twice")).2.1 rustSupport rustSignature hrust
    have hembeds := hiff.mpr ⟨by simp only [Unflagged]; decide +kernel, by decide +kernel,
      by decide +kernel⟩
    exact ⟨wrapper, hwrapper, hembeds.verbatim, hembeds.accepted⟩
  · obtain ⟨wrapper, hwrapper, himp⟩ :=
      (code_embedded_iff asciiWords goText (text "twice")).2.2 GoHygiene.wordTypes goSupport
        goSignature goBounds _ hgo hbounds rfl
    rw [hbody] at himp
    have hembedded := himp ⟨by simp, by decide +kernel, by decide +kernel, by decide +kernel⟩
    exact ⟨wrapper, hwrapper, hembedded.verbatim⟩

def macroText : Text := text "const char* f(int a) \x7b return __FUNCTION__; \x7d"

def macroSignature : CSignature.Signature :=
  ⟨text "const char*", [⟨text "int", text "a", text "int a"⟩], text "int a", false⟩

/-- A function that uses its own name is refused, though it is embedded as it was written. -/
theorem function_macro_refused :
    parseSignature asciiWords macroText (text "f") = .ok macroSignature ∧
      ∃ wrapper, CppEmbedding.generate asciiWords macroText (text "f") = .ok wrapper ∧
        macroText <:+: wrapper ∧ checkFires wrapper = true := by
  have hsig : parseSignature asciiWords macroText (text "f") = .ok macroSignature :=
    eq_ok_of_toOption (by decide +kernel)
  have hund : CppEmbedding.Undisturbed macroText
      (CppWrapper.wrapperOf asciiWords (text "f") macroSignature) :=
    (CppEmbedding.undisturbed_iff _ _ _ _).mpr
      ⟨fun h _ => by cases h <;> decide +kernel, by decide +kernel⟩
  have hverbatim : macroText <:+: CppEmbedding.filled asciiWords macroText (text "f")
      macroSignature :=
    Substitution.text_infix_joined (CppEmbedding.slot_mem .userCode)
      (CppEmbedding.contents macroText (CppWrapper.wrapperOf asciiWords (text "f") macroSignature))
  have hwrapper : CppEmbedding.generate asciiWords macroText (text "f") =
      .ok (CppEmbedding.filled asciiWords macroText (text "f") macroSignature) := by
    rw [CppEmbedding.generate, CppWrapper.generateWrapper, hsig, CppEmbedding.filled,
      ← CppEmbedding.wrapped_eq_fill hund]
    rfl
  refine ⟨hsig, _, hwrapper, hverbatim, ?_⟩
  refine Bool.of_not_eq_false fun hfalse => ?_
  have hpart : text "__FUNCTION_" <:+: macroText := by decide +kernel
  exact checkFires_eq_false_iff.mp hfalse _ (by simp [leftovers]) (hpart.trans hverbatim)

end ExecutionEngine.VerbatimCode
