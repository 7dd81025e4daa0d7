import AtomicMarkup.Outline

/-!
A reader of markup. Start tags hold bare and double-quoted attributes, five entities stand for
their characters, void elements have no end tag and all other elements have a matching one.
Whatever is written otherwise is refused and not repaired.
-/

namespace AtomicMarkup.Html

def isSpace (c : Char) : Bool :=
  [' ', '\t', '\n', '\x0c', '\r'].contains c

def isNameChar (c : Char) : Bool :=
  !(isSpace c || ['\x22', '\x27', '<', '>', '/', '='].contains c)

/-- Text with its entities replaced. Any other ampersand stands for itself. -/
def decode : List Char → List Char
  | '&' :: 'a' :: 'm' :: 'p' :: ';' :: cs => '&' :: decode cs
  | '&' :: 'l' :: 't' :: ';' :: cs => '<' :: decode cs
  | '&' :: 'g' :: 't' :: ';' :: cs => '>' :: decode cs
  | '&' :: 'q' :: 'u' :: 'o' :: 't' :: ';' :: cs => '\x22' :: decode cs
  | '&' :: '#' :: '3' :: '9' :: ';' :: cs => '\x27' :: decode cs
  | c :: cs => c :: decode cs
  | [] => []

def readAttribute (cs : List Char) : Option (Attribute × List Char) :=
  let name := String.ofList (cs.takeWhile isNameChar)
  if name.isEmpty then none
  else match cs.dropWhile isNameChar with
    | '=' :: '\x22' :: quoted =>
      let value := String.ofList (decode (quoted.takeWhile (· != '\x22')))
      match quoted.dropWhile (· != '\x22') with
      | [] => none
      | _ :: rest => some (⟨name, .text value⟩, rest)
    | rest => some (⟨name, .flag⟩, rest)

theorem length_dropWhile_le (p : Char → Bool) (cs : List Char) :
    (cs.dropWhile p).length ≤ cs.length :=
  (List.dropWhile_suffix p).length_le

theorem readAttribute_shorter {cs rest : List Char} {a : Attribute}
    (found : readAttribute cs = some (a, rest)) : rest.length < cs.length := by
  have whole := congrArg List.length (List.takeWhile_append_dropWhile (p := isNameChar) (l := cs))
  rw [List.length_append] at whole
  unfold readAttribute at found
  dsimp only at found
  split at found
  · contradiction
  · next named =>
    have positive : 0 < (cs.takeWhile isNameChar).length := by
      rw [List.length_pos_iff]
      intro empty
      exact named (by rw [empty]; rfl)
    split at found
    · next quoted after =>
      rw [after] at whole
      simp only [List.length_cons] at whole
      split at found
      · contradiction
      · next c tail closed =>
        have shorter := length_dropWhile_le (· != '\x22') quoted
        obtain ⟨-, rfl⟩ := Prod.mk.inj (Option.some.inj found)
        rw [closed, List.length_cons] at shorter
        omega
    · obtain ⟨-, rfl⟩ := Prod.mk.inj (Option.some.inj found)
      omega

def readAttributes (cs : List Char) : Option (List Attribute × List Char) :=
  match cs.dropWhile isSpace with
  | '>' :: rest => some ([], rest)
  | _ =>
    match _ : readAttribute (cs.dropWhile isSpace) with
    | none => none
    | some (a, rest) =>
      match readAttributes rest with
      | none => none
      | some (attributes, after) => some (a :: attributes, after)
termination_by cs.length
decreasing_by
  have shorter := readAttribute_shorter ‹readAttribute _ = some _›
  have most := length_dropWhile_le isSpace cs
  omega

def readMark : List Char → Option (Mark × List Char)
  | '<' :: '/' :: cs =>
    match cs.dropWhile isNameChar with
    | '>' :: rest => some (.finish (String.ofList (cs.takeWhile isNameChar)), rest)
    | _ => none
  | '<' :: c :: cs =>
    if c.isAlpha then
      match readAttributes (cs.dropWhile isNameChar) with
      | none => none
      | some (attributes, rest) =>
        some (.start (String.ofList (c :: cs.takeWhile isNameChar)) attributes [], rest)
    else none
  | ['<'] => none
  | cs => some (.text (String.ofList (decode (cs.takeWhile (· != '<')))), cs.dropWhile (· != '<'))

theorem readAttributes_shorter {cs rest : List Char} {attributes : List Attribute}
    (found : readAttributes cs = some (attributes, rest)) : rest.length < cs.length := by
  have most (cs : List Char) := length_dropWhile_le isSpace cs
  fun_induction readAttributes cs generalizing attributes with
  | case1 cs tail inTag =>
    obtain ⟨-, rfl⟩ := Prod.mk.inj (Option.some.inj found)
    have shorter := most cs
    rw [inTag, List.length_cons] at shorter
    omega
  | case2 => contradiction
  | case3 => contradiction
  | case4 cs _ middle first _ after more _ ih =>
    obtain ⟨-, rfl⟩ := Prod.mk.inj (Option.some.inj found)
    have step := readAttribute_shorter first
    have later := ih more
    have shorter := most cs
    omega

theorem readMark_shorter {cs rest : List Char} {mark : Mark} (nonempty : cs ≠ [])
    (found : readMark cs = some (mark, rest)) : rest.length < cs.length := by
  unfold readMark at found
  split at found
  · next cs =>
    split at found
    · next tail closed =>
      obtain ⟨-, rfl⟩ := Prod.mk.inj (Option.some.inj found)
      have most := length_dropWhile_le isNameChar cs
      rw [closed, List.length_cons] at most
      simp only [List.length_cons]
      omega
    · contradiction
  · next c cs _ =>
    split at found
    · split at found
      · contradiction
      · next attributes tail opened =>
        obtain ⟨-, rfl⟩ := Prod.mk.inj (Option.some.inj found)
        have most := length_dropWhile_le isNameChar cs
        have shorter := readAttributes_shorter opened
        simp only [List.length_cons]
        omega
    · contradiction
  · contradiction
  · next noEnd noStart noLone =>
    obtain ⟨-, rfl⟩ := Prod.mk.inj (Option.some.inj found)
    cases cs with
    | nil => exact absurd rfl nonempty
    | cons c cs =>
      have ordinary : c ≠ '<' := by
        rintro rfl
        cases cs with
        | nil => exact noLone rfl
        | cons d cs => exact noStart d cs rfl
      rw [List.dropWhile_cons_of_pos (by simpa using ordinary)]
      have most := length_dropWhile_le (· != '<') cs
      simp only [List.length_cons]
      omega

/-- An element whose end tag is still to come, with the nodes before it, last node first. -/
structure Frame where
  tag : String
  attributes : List Attribute
  before : List Node

/-- Takes one mark into account: `frames` are the open elements, innermost first, and `done` the
finished nodes of the innermost one, last node first. -/
def place (frames : List Frame) (done : List Node) : Mark → Option (List Frame × List Node)
  | .start tag attributes _ =>
    if isVoidTag tag then some (frames, .element tag attributes [] [] :: done)
    else some (⟨tag, attributes, done⟩ :: frames, [])
  | .finish tag =>
    match frames with
    | [] => none
    | frame :: outer =>
      if frame.tag = tag then
        some (outer, .element tag frame.attributes done.reverse [] :: frame.before)
      else none
  | .text s => some (frames, .text s :: done)
  | .raw _ => none

def readFrom (frames : List Frame) (done : List Node) (cs : List Char) : Option (List Node) :=
  if _ : cs = [] then (if frames.isEmpty then some done.reverse else none)
  else
    match _ : readMark cs with
    | none => none
    | some (mark, rest) =>
      match place frames done mark with
      | none => none
      | some (frames, done) => readFrom frames done rest
termination_by cs.length
decreasing_by exact readMark_shorter ‹cs ≠ []› ‹readMark _ = some _›

def read (s : String) : Option (List Node) :=
  readFrom [] [] s.toList

end AtomicMarkup.Html
