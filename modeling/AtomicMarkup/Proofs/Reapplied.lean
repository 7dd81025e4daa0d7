import AtomicMarkup.Proofs.DarkOrder

/-!
Colours that are given again in the same scope. A later colour replaces what it declares itself.
One that both schemes share declares nothing under the dark scheme, so the dark declaration of an
earlier colour stays in effect there. It is the only declaration that ever stays.
-/

namespace AtomicMarkup

namespace Scope

def declareSchemes (s : Scope) (name value darkName : String) (dark : Option String) :
    List Declaration :=
  s.declare name value :: (dark.map (s.darkened.declare darkName)).toList

theorem sameScope_declare (s : Scope) (name v w : String) :
    (s.declare name v).sameScope (s.declare name w) = true :=
  Declaration.sameScope_iff.mpr ⟨rfl, rfl, rfl, rfl⟩

theorem sameScope_declare_darkened {s : Scope} (notDark : s.isDark = false)
    (name darkName v w : String) :
    (s.darkened.declare darkName v).sameScope (s.declare name w) = false ∧
      (s.declare name w).sameScope (s.darkened.declare darkName v) = false := by
  have apart := mediaText?_darkened_ne notDark
  constructor <;> rw [Bool.eq_false_iff] <;> intro same
  · exact apart (Declaration.sameScope_iff.mp same).2.1
  · exact apart (Declaration.sameScope_iff.mp same).2.1.symm

/-- Of two declarations of a value, the earlier one leaves at most its dark part. -/
theorem effective_declareSchemes {s : Scope} {name v w darkName : String}
    {dark again : Option String} (notDark : dark.isSome → s.isDark = false) :
    Declaration.effective (s.declareSchemes name v darkName dark ++
        s.declareSchemes name w darkName again) =
      Declaration.effective (s.declareSchemes name w darkName again) ++
        if again.isSome then [] else (dark.map (s.darkened.declare darkName)).toList := by
  rw [Declaration.effective_append]
  congr 1
  cases dark with
  | none =>
    simp [declareSchemes, Declaration.effective, sameScope_declare]
  | some text =>
    have apart := sameScope_declare_darkened (notDark rfl) name darkName text
    cases again with
    | none => simp [declareSchemes, Declaration.effective, sameScope_declare, apart]
    | some darkAgain =>
      have covered := s.darkened.sameScope_declare darkName text darkAgain
      simp [declareSchemes, Declaration.effective, sameScope_declare, apart, covered]

end Scope

namespace SchemeColor

def darkText? (c : SchemeColor) (scope : Scope) : Option String :=
  if scope.isDark || scope.isLight || c.isUniform then none else some c.resolvedDark.css

/-- Whether the dark value of a colour stays when another colour is given in the same scope. -/
def outlives (c later : SchemeColor) (scope : Scope) : Bool :=
  !scope.isDark && !scope.isLight && !c.isUniform && later.isUniform

theorem notDark_of_darkText? {c : SchemeColor} {scope : Scope}
    (dark : (c.darkText? scope).isSome) : scope.isDark = false := by
  cases isDark : scope.isDark with
  | false => rfl
  | true => simp [darkText?, isDark] at dark

theorem declarations_eq (name : String) (c : SchemeColor) (scope : Scope) :
    c.declarations name scope = scope.declareSchemes name
      (if scope.isDark then c.resolvedDark.css else c.light.css) name (c.darkText? scope) := by
  cases isDark : scope.isDark with
  | true => simp [declarations, Scope.declareSchemes, darkText?, isDark]
  | false =>
    cases alone : (c.isUniform || scope.isLight) <;>
      simp [declarations, Scope.declareSchemes, darkText?, isDark, alone, Bool.or_comm]

theorem left_darkText? (c later : SchemeColor) (scope : Scope) (name : String) :
    (if (later.darkText? scope).isSome then []
      else ((c.darkText? scope).map (scope.darkened.declare name)).toList) =
      if c.outlives later scope then [scope.darkened.declare name c.resolvedDark.css] else [] := by
  cases isDark : scope.isDark <;> cases isLight : scope.isLight <;>
    cases uniform : c.isUniform <;> cases laterUniform : later.isUniform <;>
    simp [darkText?, outlives, isDark, isLight, uniform, laterUniform]

end SchemeColor

theorem Border.declarations_eq {b : Border} {scope : Scope} (given : b.parts scope ≠ []) :
    b.declarations scope = scope.declareSchemes b.property (" ".intercalate (b.parts scope))
      (b.property ++ "-color") (b.color.bind fun c => c.darkText? scope) := by
  have dark : b.darkDeclarations scope =
      ((b.color.bind fun c => c.darkText? scope).map
        (scope.darkened.declare (b.property ++ "-color"))).toList := by
    rw [darkDeclarations]
    cases b.color with
    | none => rfl
    | some c =>
      simp only [Option.bind_some, SchemeColor.darkText?]
      split <;> rfl
  rw [declarations, Scope.declareSchemes, ← dark]
  split
  · next none => exact absurd none given
  · rfl

theorem Border.color_eq_none {b : Border} {scope : Scope} (empty : b.parts scope = []) :
    b.color = none ∧ b.declarations scope = [] := by
  constructor
  · cases color : b.color with
    | none => rfl
    | some c => simp [parts, color] at empty
  · rw [declarations, empty]

/-- A colour, or a border with all its parts, that is given again in a scope: of the earlier
declarations nothing is left in effect but the dark one, and that exactly when the earlier colour
differs between the schemes, the later one does not, and the scope is outside both schemes. -/
theorem Property.effective_reapplied (scope : Scope) :
    (∀ (p : ColorProperty) (c later : SchemeColor),
      Declaration.effective
          ((color p c).declarations scope ++ (color p later).declarations scope) =
        Declaration.effective ((color p later).declarations scope) ++
          if c.outlives later scope then
            [scope.darkened.declare (Keyword.css p) c.resolvedDark.css]
          else []) ∧
    (∀ (b : Border) (width : Length) (style : BorderStyle) (later : SchemeColor),
      Declaration.effective ((border b).declarations scope ++
          (border ⟨some width, some style, some later, b.side⟩).declarations scope) =
        Declaration.effective
            ((border ⟨some width, some style, some later, b.side⟩).declarations scope) ++
          match b.color with
          | none => []
          | some c =>
            if c.outlives later scope then
              [scope.darkened.declare (b.property ++ "-color") c.resolvedDark.css]
            else []) := by
  constructor
  · intro p c later
    rw [declarations, declarations, SchemeColor.declarations_eq, SchemeColor.declarations_eq,
      Scope.effective_declareSchemes SchemeColor.notDark_of_darkText?, SchemeColor.left_darkText?]
  · intro b width style later
    let again : Border := ⟨some width, some style, some later, b.side⟩
    have given : again.parts scope ≠ [] := by simp [again, Border.parts]
    rw [declarations, declarations, Border.declarations_eq given]
    by_cases parts : b.parts scope = []
    · obtain ⟨colorless, nothing⟩ := Border.color_eq_none parts
      simp [colorless, nothing]
    · have notDark : (b.color.bind fun c => c.darkText? scope).isSome →
          scope.isDark = false := by
        intro dark
        obtain ⟨text, found⟩ := Option.isSome_iff_exists.mp dark
        obtain ⟨c, -, own⟩ := Option.bind_eq_some_iff.mp found
        exact SchemeColor.notDark_of_darkText? (Option.isSome_of_eq_some own)
      rw [Border.declarations_eq parts]
      have name : again.property = b.property := rfl
      rw [name, Scope.effective_declareSchemes notDark]
      congr 1
      cases b.color with
      | none => simp
      | some c => exact SchemeColor.left_darkText? c later scope _

/-- Red in both schemes is given after ink, and in the dark scheme the ink is still white. -/
theorem Property.inkColor_outlives :
    Declaration.effective (inkColor.declarations .root ++
        (color .color (.fixed (.named .red))).declarations .root) =
      [⟨"color", "red", none, none, none⟩,
        ⟨"color", "white", some "(prefers-color-scheme: dark)", none, none⟩] ∧
    Declaration.effective ((color .color (.fixed (.named .red))).declarations .root) =
      [⟨"color", "red", none, none, none⟩] := by
  decide +kernel

end AtomicMarkup
