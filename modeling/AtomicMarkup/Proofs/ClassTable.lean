import AtomicMarkup.Proofs.FirstUse
import AtomicMarkup.Proofs.Numeral
import AtomicMarkup.Sheet.ClassTable

/-!
The table of classes as a dictionary. Interning only appends entries, each declaration is entered
once under a class of its own, and a class that was given out is found again, with its
declaration, in every later table.
-/

namespace AtomicMarkup.ClassTable

def declarations (t : ClassTable) : List Declaration :=
  t.entries.map (fun entry => entry.declaration)

def classOf? (t : ClassTable) (d : Declaration) : Option String :=
  (t.find? d).map (fun entry => entry.name)

def declarationOf? (t : ClassTable) (name : String) : Option Declaration :=
  (t.entries.find? (fun entry => entry.name == name)).map (fun entry => entry.declaration)

/-- No declaration has two entries, and every class is the one that was next when it was given. -/
structure WellFormed (t : ClassTable) : Prop where
  once : t.declarations.Nodup
  named : ∀ before entry after, t.entries = before ++ entry :: after →
    entry.name = nextName { t with entries := before } entry.declaration.property

/-- A later state of a table: its options are kept, and its entries come first. -/
structure Extends (later earlier : ClassTable) : Prop where
  naming : later.naming = earlier.naming
  lead : later.lead = earlier.lead
  entries : earlier.entries <+: later.entries

theorem Extends.refl {t : ClassTable} : t.Extends t :=
  ⟨rfl, rfl, List.prefix_refl _⟩

theorem Extends.trans {t u v : ClassTable} (second : v.Extends u) (first : u.Extends t) :
    v.Extends t :=
  ⟨second.naming.trans first.naming, second.lead.trans first.lead,
    first.entries.trans second.entries⟩

theorem mem_entries_of_find? {t : ClassTable} {d : Declaration} {entry : ClassEntry}
    (found : t.find? d = some entry) : entry ∈ t.entries ∧ entry.declaration = d :=
  ⟨List.mem_of_find?_eq_some found, by simpa using List.find?_some found⟩

theorem find?_eq_none_iff {t : ClassTable} {d : Declaration} :
    t.find? d = none ↔ d ∉ t.declarations := by
  simp [find?, declarations]

/-- What interning does: a known declaration keeps its class and the table, and a new one is
appended under the next class. -/
theorem intern_cases (t : ClassTable) (d : Declaration) :
    (∃ entry, t.find? d = some entry ∧ t.intern d = (entry.name, t)) ∨
      (d ∉ t.declarations ∧ t.intern d =
        (t.nextName d.property,
          { t with entries := t.entries ++ [⟨t.nextName d.property, d⟩] })) := by
  cases found : t.find? d with
  | some entry => exact .inl ⟨entry, rfl, by simp [intern, found]⟩
  | none => exact .inr ⟨find?_eq_none_iff.mp found, by simp [intern, found]⟩

theorem extends_intern (t : ClassTable) (d : Declaration) : (t.intern d).2.Extends t := by
  obtain ⟨entry, -, step⟩ | ⟨-, step⟩ := t.intern_cases d
  · rw [step]
    exact .refl
  · rw [step]
    exact ⟨rfl, rfl, List.prefix_append _ _⟩

theorem declarations_intern (t : ClassTable) (d : Declaration) :
    (t.intern d).2.declarations =
      if d ∈ t.declarations then t.declarations else t.declarations ++ [d] := by
  obtain ⟨entry, found, step⟩ | ⟨new, step⟩ := t.intern_cases d
  · obtain ⟨member, rfl⟩ := mem_entries_of_find? found
    have known : entry.declaration ∈ t.declarations := List.mem_map_of_mem member
    rw [step, if_pos known]
  · rw [step, if_neg new]
    simp [declarations]

theorem WellFormed.intern {t : ClassTable} (wf : t.WellFormed) (d : Declaration) :
    (t.intern d).2.WellFormed := by
  refine ⟨?_, ?_⟩
  · rw [declarations_intern]
    split
    · exact wf.once
    · next new => exact List.nodup_append.mpr ⟨wf.once, by simp, by
        intro a inside b last
        rw [List.mem_singleton.mp last]
        rintro rfl
        exact new inside⟩
  · obtain ⟨entry, -, step⟩ | ⟨-, step⟩ := t.intern_cases d
    · rw [step]
      exact wf.named
    · intro before entry after split
      rw [step] at split ⊢
      -- The entry in question is either the new one or stands in the old table.
      rcases List.append_eq_append_iff.mp split with ⟨rest, rfl, tail⟩ | ⟨rest, whole, tail⟩
      · obtain ⟨rfl, last⟩ | ⟨more, rfl, none⟩ := List.cons_eq_append_iff.mp tail
        · obtain ⟨rfl, -⟩ := List.cons_eq_cons.mp last
          simp
        · simp at none
      · obtain ⟨rfl, last⟩ | ⟨more, rfl, -⟩ := List.cons_eq_append_iff.mp tail
        · obtain ⟨rfl, -⟩ := List.cons_eq_cons.mp last
          rw [List.append_nil] at whole
          rw [← whole]
        · exact wf.named before entry more whole

theorem wellFormed_empty (naming : ClassNaming) (classPrefix : Option String) :
    (empty naming classPrefix).WellFormed := by
  refine ⟨List.nodup_nil, ?_⟩
  intro before entry after split
  simp [empty] at split

theorem classOf?_intern (t : ClassTable) (d : Declaration) :
    (t.intern d).2.classOf? d = some (t.intern d).1 := by
  obtain ⟨entry, found, step⟩ | ⟨new, step⟩ := t.intern_cases d
  · rw [step]
    simp [classOf?, found]
  · have missing : t.entries.find? (fun entry => entry.declaration == d) = none :=
      find?_eq_none_iff.mpr new
    rw [step]
    simp [classOf?, find?, missing]

theorem Extends.classOf? {later earlier : ClassTable} (grown : later.Extends earlier)
    {d : Declaration} {name : String} (given : earlier.classOf? d = some name) :
    later.classOf? d = some name := by
  obtain ⟨entry, found, rfl⟩ := Option.map_eq_some_iff.mp given
  have kept : later.find? d = some entry := grown.entries.find?_eq_some found
  simp [ClassTable.classOf?, kept]

theorem classOf?_isSome_iff {t : ClassTable} {d : Declaration} :
    (t.classOf? d).isSome ↔ d ∈ t.declarations := by
  simp [classOf?, find?, declarations]

private theorem last_hyphen_unique {s t cs ds : List Char} (left : '-' ∉ cs) (right : '-' ∉ ds)
    (same : s ++ '-' :: cs = t ++ '-' :: ds) : s = t ∧ cs = ds := by
  rcases List.append_eq_append_iff.mp same with ⟨more, rfl, tail⟩ | ⟨more, rfl, tail⟩
  · cases more with
    | nil => exact ⟨by simp, by simpa using tail⟩
    | cons c more =>
      have equal := (List.cons_eq_cons.mp tail).2
      exact absurd (equal ▸ by simp) left
  · cases more with
    | nil => exact ⟨by simp, by simpa [eq_comm] using tail⟩
    | cons c more =>
      have equal := (List.cons_eq_cons.mp tail).2
      exact absurd (equal ▸ by simp) right

/-- In tables with the same options, next classes agree only where the counters agree. By
property, the number behind the last hyphen is the counter. -/
theorem nextName_eq {t u : ClassTable} (naming : t.naming = u.naming) (lead : t.lead = u.lead)
    {p q : String} (same : t.nextName p = u.nextName q) :
    match u.naming with
    | .property => stem p = stem q ∧ t.stemCount (stem p) = u.stemCount (stem q)
    | .compact => t.entries.length = u.entries.length := by
  unfold nextName at same
  rw [naming, lead] at same
  revert same
  cases u.naming with
  | property =>
    intro same
    have texts := congrArg String.toList same
    simp only [String.toList_append, List.append_assoc, List.append_cancel_left_eq] at texts
    have hyphen : "-".toList = ['-'] := rfl
    rw [hyphen] at texts
    have digits (n : Nat) : (Number.decimal n).toList = Number.digits 10 n :=
      String.toList_ofList
    rw [digits, digits] at texts
    obtain ⟨stems, counts⟩ := last_hyphen_unique
      (Number.not_mem_digits (by decide) (by omega) (by omega) _)
      (Number.not_mem_digits (by decide) (by omega) (by omega) _) texts
    exact ⟨String.toList_inj.mp stems, Number.digits_injective (by omega) (by omega) counts⟩
  | compact =>
    intro same
    have texts := congrArg String.toList same
    simp only [String.toList_append, List.append_assoc, List.append_cancel_left_eq] at texts
    exact Number.base36_injective (String.toList_inj.mp texts)

theorem WellFormed.name_ne {t : ClassTable} (wf : t.WellFormed)
    (before between after : List ClassEntry) {e f : ClassEntry}
    (split : t.entries = before ++ e :: (between ++ f :: after)) : e.name ≠ f.name := by
  intro same
  have first := wf.named before e (between ++ f :: after) split
  have second := wf.named (before ++ e :: between) f after (by simp [split])
  rw [first, second] at same
  have counters := nextName_eq (t := { t with entries := before })
    (u := { t with entries := before ++ e :: between }) rfl rfl same
  cases naming : t.naming with
  | property =>
    simp only [naming] at counters
    obtain ⟨stems, counts⟩ := counters
    -- The first of the two entries is itself counted before the second.
    simp only [stemCount, List.countP_append, List.countP_cons, stems, beq_self_eq_true,
      if_true] at counts
    omega
  | compact =>
    simp [naming] at counters

theorem WellFormed.names_nodup {t : ClassTable} (wf : t.WellFormed) :
    (t.entries.map (fun entry => entry.name)).Nodup := by
  rw [List.Nodup, List.pairwise_map, List.pairwise_iff_forall_sublist]
  intro e f pair
  obtain ⟨front, back, split, inFront, inBack⟩ := List.cons_sublist_iff.mp pair
  obtain ⟨before, between, rfl⟩ := List.append_of_mem inFront
  obtain ⟨between', after, rfl⟩ := List.append_of_mem (List.singleton_sublist.mp inBack)
  exact wf.name_ne before (between ++ between') after (by simp [split])

theorem WellFormed.declarationOf?_classOf? {t : ClassTable} (wf : t.WellFormed) {d : Declaration}
    {name : String} (given : t.classOf? d = some name) : t.declarationOf? name = some d := by
  obtain ⟨entry, found, rfl⟩ := Option.map_eq_some_iff.mp given
  obtain ⟨member, rfl⟩ := mem_entries_of_find? found
  obtain ⟨before, after, split⟩ := List.append_of_mem member
  have earlier : before.find? (fun e => e.name == entry.name) = none := by
    rw [List.find?_eq_none]
    intro e inside same
    obtain ⟨front, back, rfl⟩ := List.append_of_mem inside
    exact wf.name_ne front back after (by simpa using split) (by simpa using same)
  simp [declarationOf?, split, earlier]

theorem WellFormed.classOf?_of_mem {t : ClassTable} (wf : t.WellFormed) {entry : ClassEntry}
    (member : entry ∈ t.entries) : t.classOf? entry.declaration = some entry.name := by
  obtain ⟨name, given⟩ := Option.isSome_iff_exists.mp
    (classOf?_isSome_iff.mpr (List.mem_map_of_mem member))
  obtain ⟨other, found, rfl⟩ := Option.map_eq_some_iff.mp given
  obtain ⟨inside, same⟩ := mem_entries_of_find? found
  rw [given, List.inj_on_of_nodup_map wf.once inside member same]

theorem WellFormed.filter_declaration {t : ClassTable} (wf : t.WellFormed) {entry : ClassEntry}
    (member : entry ∈ t.entries) :
    t.entries.filter (fun e => e.declaration == entry.declaration) = [entry] := by
  obtain ⟨before, after, split⟩ := List.append_of_mem member
  have once := wf.once
  simp only [declarations, split, List.map_append, List.map_cons, List.nodup_append,
    List.nodup_cons, List.mem_cons, List.mem_map] at once
  obtain ⟨-, ⟨later, -⟩, earlier⟩ := once
  have noneBefore : before.filter (fun e => e.declaration == entry.declaration) = [] := by
    rw [List.filter_eq_nil_iff]
    intro e inside same
    exact earlier _ ⟨e, inside, rfl⟩ _ (.inl rfl) (by simpa using same)
  have noneAfter : after.filter (fun e => e.declaration == entry.declaration) = [] := by
    rw [List.filter_eq_nil_iff]
    intro e inside same
    exact later ⟨e, inside, by simpa using same⟩
  rw [split, List.filter_append, noneBefore, List.filter_cons_of_pos (by simp), noneAfter]
  rfl

theorem WellFormed.before {naming : ClassNaming} {lead : String} {before : List ClassEntry}
    {entry : ClassEntry} (wf : WellFormed ⟨naming, lead, before ++ [entry]⟩) :
    WellFormed ⟨naming, lead, before⟩ ∧
      entry.name = nextName ⟨naming, lead, before⟩ entry.declaration.property := by
  refine ⟨⟨?_, ?_⟩, wf.named before entry [] rfl⟩
  · have once := wf.once
    simp only [declarations, List.map_append] at once
    exact (List.nodup_append.mp once).1
  · rintro front e back rfl
    exact wf.named front e (back ++ [entry]) (by simp)

theorem WellFormed.names_of_stem {lead : String} {entries : List ClassEntry}
    (wf : WellFormed ⟨.property, lead, entries⟩) (s : String) :
    (entries.filter fun e => stem e.declaration.property == s).map (fun e => e.name) =
      (List.range (stemCount ⟨.property, lead, entries⟩ s)).map fun k =>
        lead ++ s ++ "-" ++ Number.decimal k := by
  induction entries using List.reverseRecOn with
  | nil => rfl
  | append_singleton before entry ih =>
    obtain ⟨earlier, name⟩ := wf.before
    have known := ih earlier
    simp only [nextName] at name
    by_cases same : stem entry.declaration.property = s
    · rw [same] at name
      have more : stemCount ⟨.property, lead, before ++ [entry]⟩ s =
          stemCount ⟨.property, lead, before⟩ s + 1 := by simp [stemCount, same]
      rw [more, List.range_succ, List.map_append, ← known]
      simp [same, name]
    · have equal : stemCount ⟨.property, lead, before ++ [entry]⟩ s =
          stemCount ⟨.property, lead, before⟩ s := by simp [stemCount, same]
      rw [equal, ← known]
      simp [same]

theorem WellFormed.names_compact {lead : String} {entries : List ClassEntry}
    (wf : WellFormed ⟨.compact, lead, entries⟩) :
    entries.map (fun e => e.name) =
      (List.range entries.length).map fun k => lead ++ "c" ++ Number.base36 k := by
  induction entries using List.reverseRecOn with
  | nil => rfl
  | append_singleton before entry ih =>
    obtain ⟨earlier, name⟩ := wf.before
    rw [List.length_append, List.length_singleton, List.range_succ, List.map_append,
      List.map_append, ih earlier]
    simp [name, nextName]

theorem internAll_cons (t : ClassTable) (d : Declaration) (rest : List Declaration) :
    t.internAll (d :: rest) =
      ((t.intern d).1 :: ((t.intern d).2.internAll rest).1, ((t.intern d).2.internAll rest).2) :=
  rfl

theorem extends_internAll (t : ClassTable) (ds : List Declaration) :
    (t.internAll ds).2.Extends t := by
  induction ds generalizing t with
  | nil => exact .refl
  | cons d rest ih =>
    rw [internAll_cons]
    exact (ih _).trans (t.extends_intern d)

theorem WellFormed.internAll {t : ClassTable} (wf : t.WellFormed) (ds : List Declaration) :
    (t.internAll ds).2.WellFormed := by
  induction ds generalizing t with
  | nil => exact wf
  | cons d rest ih =>
    rw [internAll_cons]
    exact ih (wf.intern d)

theorem classOf?_internAll (t : ClassTable) (ds : List Declaration) :
    ds.map (t.internAll ds).2.classOf? = (t.internAll ds).1.map some := by
  induction ds generalizing t with
  | nil => rfl
  | cons d rest ih =>
    rw [internAll_cons, List.map_cons, List.map_cons, ih]
    have first := (extends_internAll (t.intern d).2 rest).classOf? (t.classOf?_intern d)
    rw [first]

/-- A table whose declarations are the first occurrences of those seen so far stays one. -/
theorem declarations_internAll {t : ClassTable} {seen : List Declaration}
    (start : t.declarations = seen.eraseDups) (ds : List Declaration) :
    (t.internAll ds).2.declarations = (seen ++ ds).eraseDups := by
  induction ds generalizing t seen with
  | nil =>
    rw [List.append_nil]
    exact start
  | cons d rest ih =>
    have step : (t.intern d).2.declarations = (seen ++ [d]).eraseDups := by
      rw [declarations_intern, start, eraseDups_concat]
      simp [List.mem_eraseDups]
    rw [internAll_cons, ih step, List.append_assoc, List.singleton_append]

end AtomicMarkup.ClassTable
