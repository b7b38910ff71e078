import StackToolchain.Proofs.Compiler.RewordedCode

/-! The names of a source leave no trace in its image.
Other names, as long as they are different where the old ones were, change labels and error messages and nothing
else. -/
namespace StackToolchain

open Source

/-- An error about a name, with the name replaced. What is counted and where the name stands are as before. -/
def CompileError.rename (m : String → String) : CompileError → CompileError
  | .undefinedSymbol name o => .undefinedSymbol (m name) o
  | .wrongKind name use o => .wrongKind (m name) use o
  | .arityMismatch name expected got o => .arityMismatch (m name) expected got o
  | .frameOverflow function => .frameOverflow (m function)
  | .assembly e => .assembly (e.rename (renamedLabel m))
  | .comment e => .comment e
  | .source e => .source e

section
variable {m : String → String}

private theorem eq_of_rel_eq {o o' : Option Nat} (h : Option.Rel (fun o o' => o' = o) o o') : o' = o := by
  cases h with
  | none => rfl
  | some h => rw [h]

private theorem CompileError.Reworded.eq_rename {e e' : CompileError} (h : e.Reworded (.renaming m) e') :
    e' = e.rename m := by
  cases h with
  | undefinedSymbol ho => rw [eq_of_rel_eq ho]; rfl
  | wrongKind ho => rw [eq_of_rel_eq ho]; rfl
  | arityMismatch ho => rw [eq_of_rel_eq ho]; rfl
  | frameOverflow => rfl

/-- Either there is code for both sources, the same under other labels, or for neither, for the same reason. -/
theorem generate_rename (hm : Function.Injective m) (hmain : m "main" = "main") (tree : Tree) :
    (∃ g, generate tree = .ok g ∧ generate (Tree.rename m tree) = .ok (g.rename m)) ∨
      ∃ e, generate tree = .error e ∧ generate (Tree.rename m tree) = .error (e.rename m) := by
  have h := generate_renders (w := .renaming m) hm hmain (Tree.reworded_rename m tree)
  cases hg : generate tree with
  | ok g =>
    rw [hg] at h
    generalize generate (Tree.rename m tree) = outcome at h
    cases h with
    | ok he => exact .inl ⟨g, rfl, by rw [he]; rfl⟩
  | error e =>
    rw [hg] at h
    generalize generate (Tree.rename m tree) = outcome at h
    cases h with
    | error he => exact .inr ⟨e, rfl, by rw [he.eq_rename]⟩

private theorem Generated.assemble_rename (hm : Function.Injective m) (g : Generated) :
    (g.rename m).code.assemble = g.code.assemble.mapError (.rename (renamedLabel m)) :=
  Program.assemble_rename (renamedLabel_injective hm) g.code

end

/-- Let names be replaced one to one, and `main` by itself. Then there is code for the new source exactly if there is
code for the old one, and otherwise both fail with the same error, at the same place and with the same counts. The
code has the same frames, and either the same image or the same error of assembly, but for names. -/
theorem renaming_preserves_image {m : String → String} (hm : Function.Injective m) (hmain : m "main" = "main")
    (tree : Tree) :
    ((∃ g, generate (Tree.rename m tree) = .ok g) ↔ ∃ g, generate tree = .ok g) ∧
      (∀ e, generate tree = .error e → generate (Tree.rename m tree) = .error (e.rename m)) ∧
        ∀ g g', generate tree = .ok g → generate (Tree.rename m tree) = .ok g' →
          g'.frames = g.frames.rename m (Frame.rename m) ∧
            ((∃ bytes, g.code.assemble = .ok bytes ∧ g'.code.assemble = .ok bytes) ∨
              ∃ e, g.code.assemble = .error e ∧ g'.code.assemble = .error (e.rename (renamedLabel m))) := by
  rcases generate_rename hm hmain tree with ⟨g, hg, hg'⟩ | ⟨e, he, he'⟩
  · refine ⟨by simp [hg, hg'], by simp [hg], fun g₁ g₂ h₁ h₂ => ?_⟩
    obtain rfl := Except.ok.inj (hg.symm.trans h₁)
    obtain rfl := Except.ok.inj (hg'.symm.trans h₂)
    refine ⟨rfl, ?_⟩
    rw [g.assemble_rename hm]
    cases g.code.assemble with
    | ok bytes => exact .inl ⟨bytes, rfl, rfl⟩
    | error e => exact .inr ⟨e, rfl, rfl⟩
  · refine ⟨by simp [he, he'], fun e₁ h₁ => ?_, by simp [he]⟩
    obtain rfl := Except.error.inj (he.symm.trans h₁)
    exact he'

def exchangeTree : Tree :=
  [.global "x", .func "f" ["a"] [.cond (.var "a" 21) (.assign "x" (.var "a" 27) 23)] 11,
    .func "main" [] [.expr (.call "f" [.int 1] 46), .ret (some (.var "x" 60))] 37]

/-- The function takes the name of the variable, and the variable that of the function. -/
theorem renaming_preserves_image_of_exchange :
    ∃ g g' bytes, generate exchangeTree = .ok g ∧
      generate (Tree.rename (Equiv.swap "f" "x") exchangeTree) = .ok g' ∧
        g'.frames = g.frames.rename (Equiv.swap "f" "x") (Frame.rename (Equiv.swap "f" "x")) ∧
          g.code.assemble = .ok bytes ∧ g'.code.assemble = .ok bytes := by
  obtain ⟨g, hg⟩ : ∃ g, generate exchangeTree = .ok g := ⟨_, rfl⟩
  obtain ⟨hiff, -, hsame⟩ := renaming_preserves_image (Equiv.swap "f" "x").injective (by decide) exchangeTree
  obtain ⟨g', hg'⟩ := hiff.mpr ⟨g, hg⟩
  obtain ⟨hframes, ⟨bytes, hbytes, hbytes'⟩ | ⟨e, he, -⟩⟩ := hsame g g' hg hg'
  · exact ⟨g, g', bytes, hg, hg', hframes, hbytes, hbytes'⟩
  · cases hg
    cases he

end StackToolchain
