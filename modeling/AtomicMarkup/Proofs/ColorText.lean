import AtomicMarkup.Color.Basic
import AtomicMarkup.Proofs.WrittenNumber

/-!
Colours and their texts. The text of a colour shows the colour as it is spelled, its channels
included, but of an opacity it shows the nearest ten-thousandth only. So different colours have
one text just when they are spelled with opacities that are written alike.
-/

namespace AtomicMarkup

namespace Number

theorem value_hexByte (b : UInt8) : value 16 (hexByte b) = b.toNat := by
  have high : b.toNat / 16 < 36 := by
    have bound := b.toNat_lt
    omega
  have low : b.toNat % 16 < 36 := by omega
  simp only [value, hexByte, List.foldl_cons, List.foldl_nil, digitValue_digit high,
    digitValue_digit low]
  omega

theorem hexByte_injective {a b : UInt8} (same : hexByte a = hexByte b) : a = b := by
  rw [← UInt8.toNat_inj, ← value_hexByte, same, value_hexByte]

theorem not_mem_hexByte {c : Char} (low : c.toNat < 48) (b : UInt8) : c ∉ hexByte b := by
  have bound := b.toNat_lt
  simp only [hexByte, List.mem_cons, List.not_mem_nil, or_false, not_or]
  exact ⟨Ne.symm (digit_ne low (by omega)), Ne.symm (digit_ne low (by omega))⟩

theorem decimal_injective {m n : Nat} (same : decimal m = decimal n) : m = n :=
  digits_injective (by omega) (by omega) (String.ofList_injective same)

theorem not_mem_decimal {c : Char} (low : c.toNat < 48) (n : Nat) : c ∉ (decimal n).toList := by
  rw [decimal, String.toList_ofList]
  exact not_mem_digits low (by omega) (by omega) n

end Number

namespace Color

theorem toList_hexCss (c : Channels) :
    (hexCss c).toList =
      '#' :: (Number.hexByte c.red ++ (Number.hexByte c.green ++ Number.hexByte c.blue)) := by
  rw [hexCss, String.toList_ofList]
  rfl

theorem hexCss_injective {c d : Channels} (same : hexCss c = hexCss d) : c = d := by
  have chars := congrArg String.toList same
  rw [toList_hexCss, toList_hexCss, List.cons_inj_right] at chars
  obtain ⟨red, rest⟩ := List.append_inj chars rfl
  obtain ⟨green, blue⟩ := List.append_inj rest rfl
  obtain ⟨r, g, b⟩ := c
  obtain ⟨r', g', b'⟩ := d
  obtain rfl : r = r' := Number.hexByte_injective red
  obtain rfl : g = g' := Number.hexByte_injective green
  obtain rfl : b = b' := Number.hexByte_injective blue
  rfl

theorem toList_css_rgba (c : Channels) (alpha : Float) :
    (rgba c alpha).css.toList = "rgba(".toList ++ ((Number.decimal c.red.toNat).toList ++
      ',' :: ((Number.decimal c.green.toNat).toList ++
        ',' :: ((Number.decimal c.blue.toNat).toList ++
          ',' :: ((Number.cssText alpha).toList ++ [')'])))) := by
  simp [css]

theorem css_rgba_eq_iff {c d : Channels} {x y : Float} :
    (rgba c x).css = (rgba d y).css ↔ c = d ∧ Number.cssText x = Number.cssText y := by
  constructor
  · intro same
    have chars := congrArg String.toList same
    rw [toList_css_rgba, toList_css_rgba] at chars
    have comma (n : Nat) : ',' ∉ (Number.decimal n).toList :=
      Number.not_mem_decimal (by decide) n
    obtain ⟨red, rest⟩ := eq_at_mark (comma _) (comma _) (List.append_cancel_left chars)
    obtain ⟨green, rest⟩ := eq_at_mark (comma _) (comma _) rest
    obtain ⟨blue, alpha⟩ := eq_at_mark (comma _) (comma _) rest
    have channel {a b : UInt8} (same : (Number.decimal a.toNat).toList =
        (Number.decimal b.toNat).toList) : a = b :=
      UInt8.toNat_inj.mp (Number.decimal_injective (String.toList_inj.mp same))
    obtain ⟨r, g, b⟩ := c
    obtain ⟨r', g', b'⟩ := d
    obtain rfl : r = r' := channel red
    obtain rfl : g = g' := channel green
    obtain rfl : b = b' := channel blue
    exact ⟨rfl, String.toList_inj.mp (List.append_cancel_right alpha)⟩
  · rintro ⟨rfl, alpha⟩
    rw [css, css, alpha]

def words : List Color :=
  Keyword.all.map named ++ [transparent, currentColor]

theorem forms (c : Color) :
    (∃ channels, c = rgb channels) ∨ (∃ channels alpha, c = rgba channels alpha) ∨ c ∈ words := by
  cases c with
  | rgb channels => exact .inl ⟨channels, rfl⟩
  | rgba channels alpha => exact .inr (.inl ⟨channels, alpha, rfl⟩)
  | named name => cases name <;> exact .inr (.inr (by decide))
  | transparent => exact .inr (.inr (by decide))
  | currentColor => exact .inr (.inr (by decide))

theorem words_injective : ∀ a ∈ words, ∀ b ∈ words, a.css = b.css → a = b := by
  decide +kernel

theorem head?_css_words : ∀ c ∈ words, c.css.toList.head? ≠ some '#' ∧ '(' ∉ c.css.toList := by
  decide +kernel

theorem head?_css_iff {c : Color} :
    c.css.toList.head? = some '#' ↔ ∃ channels, c = rgb channels := by
  obtain ⟨channels, rfl⟩ | ⟨channels, alpha, rfl⟩ | word := c.forms
  · simp [css, toList_hexCss]
  · rw [toList_css_rgba]
    simp
  · have other := (head?_css_words c word).1
    refine ⟨fun hash => absurd hash other, ?_⟩
    rintro ⟨channels, rfl⟩
    simp [css, toList_hexCss] at other

theorem paren_mem_css_iff {c : Color} :
    '(' ∈ c.css.toList ↔ ∃ channels alpha, c = rgba channels alpha := by
  obtain ⟨channels, rfl⟩ | ⟨channels, alpha, rfl⟩ | word := c.forms
  · have plain : ∀ b, '(' ∉ Number.hexByte b := Number.not_mem_hexByte (by decide)
    simp [css, toList_hexCss, plain]
  · rw [toList_css_rgba]
    simp
  · have other := (head?_css_words c word).2
    refine ⟨fun paren => absurd paren other, ?_⟩
    rintro ⟨channels, alpha, rfl⟩
    rw [toList_css_rgba] at other
    simp at other

/-- Two colours have one text just when they are equal, or have one spelling but for opacities
that are written alike. -/
theorem css_eq_iff {a b : Color} : a.css = b.css ↔
    a = b ∨ ∃ channels x y, a = rgba channels x ∧ b = rgba channels y ∧
      Number.writtenUnits x = Number.writtenUnits y := by
  constructor
  · intro same
    obtain ⟨c, rfl⟩ | ⟨c, x, rfl⟩ | word := a.forms
    · obtain ⟨d, rfl⟩ := head?_css_iff.mp (same ▸ head?_css_iff.mpr ⟨c, rfl⟩)
      exact .inl (congrArg rgb (hexCss_injective same))
    · obtain ⟨d, y, rfl⟩ := paren_mem_css_iff.mp (same ▸ paren_mem_css_iff.mpr ⟨c, x, rfl⟩)
      obtain ⟨rfl, alpha⟩ := css_rgba_eq_iff.mp same
      exact .inr ⟨c, x, y, rfl, rfl, Number.cssText_eq_iff.mp alpha⟩
    · obtain ⟨noHash, noParen⟩ := head?_css_words a word
      rw [same, ne_eq, head?_css_iff] at noHash
      rw [same, paren_mem_css_iff] at noParen
      obtain other | other | otherWord := b.forms
      · exact absurd other noHash
      · exact absurd other noParen
      · exact .inl (words_injective a word b otherWord same)
  · rintro (rfl | ⟨channels, x, y, rfl, rfl, units⟩)
    · rfl
    · exact css_rgba_eq_iff.mpr ⟨rfl, Number.cssText_eq_iff.mpr units⟩

end Color

end AtomicMarkup
