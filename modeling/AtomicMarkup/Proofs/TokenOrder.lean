import AtomicMarkup.Proofs.ColorGrammar
import AtomicMarkup.Proofs.Validity
import AtomicMarkup.Theme

/-!
The check of a theme and the order of its colours. The colours of a theme are not in any order of
their own, and the check stops at the first token that it refuses. What it accepts in one order it
accepts in every order, but which refused token it reports depends on the order: it may be any of
them.
-/

namespace AtomicMarkup

namespace ColorToken

/-- A token is refused for its light text, or for its dark text when the light one is read. -/
inductive Refuses : ColorToken → MarkupError → Prop where
  | single {value : String} {e : MarkupError} (refused : Color.read value = .error e) :
    Refuses (.single value) e
  | light {light : String} {dark : Option String} {e : MarkupError}
      (refused : Color.read light = .error e) : Refuses (.pair light dark) e
  | dark {light dark : String} {c : Color} {e : MarkupError} (read : Color.read light = .ok c)
      (refused : Color.read dark = .error e) : Refuses (.pair light (some dark)) e

theorem read_eq_error_iff {token : ColorToken} {e : MarkupError} :
    token.read = .error e ↔ token.Refuses e := by
  match token with
  | single value => exact bind_pure_eq_error_iff.trans ⟨.single, fun (.single refused) => refused⟩
  | pair light none => exact bind_pure_eq_error_iff.trans ⟨.light, fun (.light refused) => refused⟩
  | pair light (some dark) =>
    refine bind_eq_error_iff.trans ⟨?_, ?_⟩
    · rintro (refused | ⟨c, read, refused⟩)
      · exact .light refused
      · exact .dark read (bind_pure_eq_error_iff.mp refused)
    · rintro (_ | refused | ⟨read, refused⟩)
      · exact .inl refused
      · exact .inr ⟨_, read, bind_pure_eq_error_iff.mpr refused⟩

def texts : ColorToken → List String
  | single value => [value]
  | pair light dark => light :: dark.toList

theorem Refuses.message {token : ColorToken} {e : MarkupError} (refuses : token.Refuses e) :
    ∃ value ∈ token.texts, ∃ reason, e.message = MarkupError.colorMessage value reason := by
  have message {value : String} (refused : Color.read value = .error e) :
      ∃ reason, e.message = MarkupError.colorMessage value reason := by
    obtain ⟨c, accepted, -⟩ | ⟨other, own, refuses⟩ := Color.read_cases value
    · rw [refused] at accepted
      contradiction
    · obtain rfl := Except.error.inj (refused.symm.trans own)
      exact refuses.message
  cases refuses with
  | single refused => exact ⟨_, List.mem_cons_self, message refused⟩
  | light refused => exact ⟨_, List.mem_cons_self, message refused⟩
  | dark _ refused => exact ⟨_, List.mem_cons_of_mem _ List.mem_cons_self, message refused⟩

end ColorToken

namespace Theme

variable {t : Theme} {e : MarkupError}

def tokens (t : Theme) : List (String × ColorToken) :=
  (t.colors.getD .empty).entries

/-- What the check gives for some order of the colours. -/
def MayGive (t : Theme) (result : Except MarkupError Unit) : Prop :=
  ∃ colors : TokenTable ColorToken, colors.entries.Perm t.tokens ∧
    check { t with colors := some colors } = result

def IsRefused (t : Theme) (e : MarkupError) : Prop :=
  ∃ entry ∈ t.tokens, entry.2.Refuses e

theorem check_eq_ok_iff : t.check = .ok () ↔ ∀ entry ∈ t.tokens, ∃ c, entry.2.read = .ok c := by
  refine forM_eq_ok_iff.trans ?_
  simp only [bind_pure_eq_ok_iff, and_true]
  rfl

/-- The check reports the first token that is refused. -/
theorem check_eq_error_iff : t.check = .error e ↔ ∃ before entry after,
    t.tokens = before ++ entry :: after ∧ (∀ passed ∈ before, ∃ c, passed.2.read = .ok c) ∧
      entry.2.Refuses e := by
  refine forM_eq_error_iff.trans ?_
  simp only [bind_pure_eq_ok_iff, and_true, bind_pure_eq_error_iff, ColorToken.read_eq_error_iff]
  rfl

theorem mayGive_ok_iff : t.MayGive (.ok ()) ↔ ∀ entry ∈ t.tokens, ∃ c, entry.2.read = .ok c := by
  constructor
  · rintro ⟨colors, order, accepted⟩ entry member
    exact check_eq_ok_iff.mp accepted entry (order.mem_iff.mpr member)
  · intro accepted
    exact ⟨t.colors.getD .empty, .refl _, check_eq_ok_iff.mpr accepted⟩

theorem mayGive_error_iff : t.MayGive (.error e) ↔ t.IsRefused e := by
  constructor
  · rintro ⟨colors, order, refused⟩
    obtain ⟨before, entry, after, split, -, refuses⟩ := check_eq_error_iff.mp refused
    refine ⟨entry, order.mem_iff.mp ?_, refuses⟩
    change entry ∈ tokens { t with colors := some colors }
    rw [split]
    exact List.mem_append_right before List.mem_cons_self
  · rintro ⟨entry, member, refuses⟩
    obtain ⟨before, after, split⟩ := List.append_of_mem member
    refine ⟨⟨entry :: (before ++ after)⟩, ?_, check_eq_error_iff.mpr
      ⟨[], entry, before ++ after, rfl, nofun, refuses⟩⟩
    rw [split]
    exact List.perm_middle.symm

theorem mayGive_ok_unique {result : Except MarkupError Unit} (accepted : t.MayGive (.ok ()))
    (given : t.MayGive result) : result = .ok () := by
  cases result with
  | ok _ => rfl
  | error e =>
    obtain ⟨entry, member, refuses⟩ := mayGive_error_iff.mp given
    obtain ⟨c, read⟩ := mayGive_ok_iff.mp accepted entry member
    rw [ColorToken.read_eq_error_iff.mpr refuses] at read
    contradiction

/-- The colours of a theme are accepted in every order or in none. The errors that the orders give
are those of the refused tokens, each for a colour text of its token, and all orders give the same
result just when all refused tokens have the same error. -/
theorem mayGive_orders (t : Theme) :
    (∀ result other, t.MayGive result → t.MayGive other →
      (result = .ok () ↔ other = .ok ())) ∧
    (∀ e, t.MayGive (.error e) ↔ t.IsRefused e) ∧
    (∀ e, t.MayGive (.error e) → ∃ entry ∈ t.tokens, entry.2.Refuses e ∧
      ∃ value ∈ entry.2.texts, ∃ reason, e.message = MarkupError.colorMessage value reason) ∧
    ((∀ result other, t.MayGive result → t.MayGive other → result = other) ↔
      ∀ e e', t.IsRefused e → t.IsRefused e' → e = e') := by
  refine ⟨?_, fun e => mayGive_error_iff, ?_, ?_, ?_⟩
  · intro result other given given'
    constructor
    · rintro rfl
      exact mayGive_ok_unique given given'
    · rintro rfl
      exact mayGive_ok_unique given' given
  · intro e given
    obtain ⟨entry, member, refuses⟩ := mayGive_error_iff.mp given
    exact ⟨entry, member, refuses, refuses.message⟩
  · intro same e e' refused refused'
    exact Except.error.inj (same _ _ (mayGive_error_iff.mpr refused)
      (mayGive_error_iff.mpr refused'))
  · intro same result other given given'
    match result, other with
    | .ok _, other => exact (mayGive_ok_unique given given').symm
    | .error e, .ok _ => exact mayGive_ok_unique given' given
    | .error e, .error e' =>
      rw [same e e' (mayGive_error_iff.mp given) (mayGive_error_iff.mp given')]

/-- Of two colours without meaning the first one is reported, in either order. -/
theorem either_reported :
    MayGive ⟨some ⟨[("ink", .single "#zzz"), ("paper", .single "nope")]⟩, none, none, none⟩
        (.error (.invalidHexDigits "#zzz")) ∧
      MayGive ⟨some ⟨[("ink", .single "#zzz"), ("paper", .single "nope")]⟩, none, none, none⟩
        (.error (.colorExpected "nope")) :=
  ⟨⟨⟨[("ink", .single "#zzz"), ("paper", .single "nope")]⟩, .refl _, by decide +kernel⟩,
    ⟨⟨[("paper", .single "nope"), ("ink", .single "#zzz")]⟩, .swap .., by decide +kernel⟩⟩

end Theme

end AtomicMarkup
