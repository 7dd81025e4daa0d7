import AtomicMarkup.Proofs.ClassTable

/-!
A table of classes with an index. The index holds the position of each declaration in the table
and a counter for each stem, so that a declaration is interned without a search. Both are kept up
to date by every step, an indexed table gives out the classes of the plain one, and from the laws
of the plain one follows what any sequence of declarations is given: one class for each
declaration, the same at every later time, and numbered in the order of first use.
-/

namespace AtomicMarkup

deriving instance Hashable for Selector, Declaration

structure ClassIndex where
  table : ClassTable
  positions : Std.HashMap Declaration Nat
  counters : Std.HashMap String Nat

namespace ClassIndex

def empty (naming : ClassNaming) (classPrefix : Option String) : ClassIndex :=
  ⟨.empty naming classPrefix, ∅, ∅⟩

/-- The class of the next entry, and the counters afterwards. -/
def nextName (x : ClassIndex) (property : String) : String × Std.HashMap String Nat :=
  match x.table.naming with
  | .property =>
    let s := ClassTable.stem property
    let n := x.counters.getD s 0
    (x.table.lead ++ s ++ "-" ++ Number.decimal n, x.counters.insert s (n + 1))
  | .compact => (x.table.lead ++ "c" ++ Number.base36 x.table.entries.length, x.counters)

def enter (x : ClassIndex) (d : Declaration) : ClassIndex where
  table := { x.table with entries := x.table.entries ++ [⟨(x.nextName d.property).1, d⟩] }
  positions := x.positions.insert d x.table.entries.length
  counters := (x.nextName d.property).2

def nameAt? (x : ClassIndex) (i : Nat) : Option String :=
  x.table.entries[i]?.map fun entry => entry.name

/-- The class at the position of a declaration, which is entered at its first use, and the indexed
table afterwards. No class is found where the position is none of the table. -/
def intern (x : ClassIndex) (d : Declaration) : Option String × ClassIndex :=
  match x.positions[d]? with
  | some i => (x.nameAt? i, x)
  | none => ((x.enter d).nameAt? x.table.entries.length, x.enter d)

def internAll (x : ClassIndex) (ds : List Declaration) : ClassIndex :=
  ds.foldl (fun x d => (x.intern d).2) x

/-- An index that is up to date. -/
structure Consistent (x : ClassIndex) : Prop where
  positions : ∀ (d : Declaration) (i : Nat), x.positions[d]? = some i ↔
    x.table.declarations[i]? = some d
  counters : x.table.naming = .property →
    ∀ s : String, x.counters.getD s 0 = x.table.stemCount s

theorem consistent_empty (naming : ClassNaming) (classPrefix : Option String) :
    (empty naming classPrefix).Consistent := by
  constructor
  · simp [empty, ClassTable.empty, ClassTable.declarations]
  · simp [empty, ClassTable.empty, ClassTable.stemCount]

theorem Consistent.position_eq_none_iff {x : ClassIndex} (up : x.Consistent) {d : Declaration} :
    x.positions[d]? = none ↔ d ∉ x.table.declarations := by
  constructor
  · intro missing inside
    obtain ⟨i, at_i⟩ := List.mem_iff_getElem?.mp inside
    rw [(up.positions d i).mpr at_i] at missing
    contradiction
  · intro outside
    cases found : x.positions[d]? with
    | none => rfl
    | some i => exact absurd (List.mem_of_getElem? ((up.positions d i).mp found)) outside

theorem Consistent.nextName_eq {x : ClassIndex} (up : x.Consistent) (property : String) :
    (x.nextName property).1 = x.table.nextName property := by
  cases naming : x.table.naming with
  | property => simp [nextName, ClassTable.nextName, naming, up.counters naming]
  | compact => simp [nextName, ClassTable.nextName, naming]

theorem declarations_enter (x : ClassIndex) (d : Declaration) :
    (x.enter d).table.declarations = x.table.declarations ++ [d] := by
  simp [enter, ClassTable.declarations]

theorem Consistent.enter {x : ClassIndex} (up : x.Consistent) {d : Declaration}
    (new : d ∉ x.table.declarations) : (x.enter d).Consistent := by
  have length : x.table.entries.length = x.table.declarations.length := by
    simp [ClassTable.declarations]
  constructor
  · intro e i
    have positions : (x.enter d).positions[e]? =
        if d = e then some x.table.declarations.length else x.positions[e]? := by
      simp [ClassIndex.enter, Std.HashMap.getElem?_insert, length]
    rw [positions, declarations_enter, List.getElem?_append, List.getElem?_singleton]
    by_cases same : d = e
    · -- The new declaration stands at the end, and nowhere else.
      subst same
      have missing (i : Nat) : x.table.declarations[i]? ≠ some d :=
        fun found => new (List.mem_of_getElem? found)
      rw [if_pos rfl, Option.some.injEq]
      constructor
      · rintro rfl
        simp
      · intro found
        by_contra other
        split at found
        · exact missing i found
        · next outside =>
          rw [if_neg (by omega)] at found
          contradiction
    · rw [if_neg same, up.positions]
      split
      · rfl
      · next outside =>
        have nothing : x.table.declarations[i]? = none := by simpa using outside
        rw [nothing]
        split <;> simp [same]
  · intro naming s
    have naming : x.table.naming = .property := naming
    have old := up.counters naming
    by_cases same : ClassTable.stem d.property = s
    · simp [ClassIndex.enter, nextName, naming, ClassTable.stemCount, same, old]
    · simp [ClassIndex.enter, nextName, naming, ClassTable.stemCount, same, old,
        Std.HashMap.getD_insert]

/-- Interning with the index does what interning with a search does, and always gives a class. -/
theorem Consistent.intern {x : ClassIndex} (up : x.Consistent) (d : Declaration) :
    (x.intern d).2.Consistent ∧ (x.intern d).1 = some (x.table.intern d).1 ∧
      (x.intern d).2.table = (x.table.intern d).2 := by
  obtain ⟨entry, found, step⟩ | ⟨new, step⟩ := x.table.intern_cases d
  · obtain ⟨member, rfl⟩ := ClassTable.mem_entries_of_find? found
    obtain ⟨i, at_i⟩ := List.mem_iff_getElem?.mp member
    have position := (up.positions entry.declaration i).mpr
      (by simp [ClassTable.declarations, at_i])
    rw [step]
    simp [ClassIndex.intern, position, nameAt?, at_i, up]
  · have missing := up.position_eq_none_iff.mpr new
    have name := up.nextName_eq d.property
    have found : x.intern d = ((x.enter d).nameAt? x.table.entries.length, x.enter d) := by
      rw [ClassIndex.intern, missing]
    rw [step, found]
    refine ⟨up.enter new, ?_, ?_⟩
    · simp [nameAt?, ClassIndex.enter, name]
    · simp [ClassIndex.enter, name]

theorem internAll_cons (x : ClassIndex) (d : Declaration) (rest : List Declaration) :
    x.internAll (d :: rest) = (x.intern d).2.internAll rest :=
  rfl

theorem Consistent.internAll {x : ClassIndex} (up : x.Consistent) (ds : List Declaration) :
    (x.internAll ds).Consistent ∧ (x.internAll ds).table = (x.table.internAll ds).2 := by
  induction ds generalizing x with
  | nil => exact ⟨up, rfl⟩
  | cons d rest ih =>
    obtain ⟨next, -, table⟩ := up.intern d
    obtain ⟨last, tables⟩ := ih next
    rw [internAll_cons, ClassTable.internAll_cons, ← table]
    exact ⟨last, tables⟩

/-- An indexed table of distinct classes: every declaration is found at its position, and the
classes are numbered in the order of first use, by stem or all together. -/
structure Numbered (x : ClassIndex) : Prop where
  declarations : x.table.declarations.Nodup
  names : (x.table.entries.map fun entry => entry.name).Nodup
  positions : ∀ (d : Declaration) (i : Nat), x.positions[d]? = some i ↔
    x.table.declarations[i]? = some d
  numbers : match x.table.naming with
    | .property => ∀ s : String,
      (x.table.entries.filter fun e => ClassTable.stem e.declaration.property == s).map
          (fun e => e.name) =
        (List.range (x.counters.getD s 0)).map fun k =>
          x.table.lead ++ s ++ "-" ++ Number.decimal k
    | .compact => x.table.entries.map (fun e => e.name) =
        (List.range x.table.entries.length).map fun k => x.table.lead ++ "c" ++ Number.base36 k

theorem Consistent.numbered {x : ClassIndex} (up : x.Consistent) (wf : x.table.WellFormed) :
    x.Numbered := by
  refine ⟨wf.once, wf.names_nodup, up.positions, ?_⟩
  obtain ⟨⟨naming, lead, entries⟩, positions, counters⟩ := x
  cases naming with
  | property =>
    intro s
    have counted : counters.getD s 0 = _ := up.counters rfl s
    rw [counted]
    exact wf.names_of_stem s
  | compact => exact wf.names_compact

/-- The class of a declaration is given to no other declaration later on, and again to itself. -/
theorem Consistent.intern_later {x : ClassIndex} (up : x.Consistent) (wf : x.table.WellFormed)
    (d : Declaration) (more : List Declaration) (e : Declaration) :
    ((x.internAll (d :: more)).intern e).1 = (x.intern d).1 ↔ e = d := by
  obtain ⟨next, given, nextTable⟩ := up.intern d
  obtain ⟨later, laterTable⟩ := next.internAll more
  obtain ⟨-, givenLater, -⟩ := later.intern e
  rw [internAll_cons, givenLater, given, Option.some.injEq, laterTable, nextTable]
  let u := ((x.table.intern d).2.internAll more).2
  have grown : (u.intern e).2.Extends (x.table.intern d).2 :=
    (u.extends_intern e).trans (ClassTable.extends_internAll _ more)
  have wfLast : (u.intern e).2.WellFormed := ((wf.intern d).internAll more).intern e
  -- In the last table both declarations are found under the classes that they were given.
  have first := grown.classOf? (x.table.classOf?_intern d)
  have second := u.classOf?_intern e
  constructor
  · intro same
    have owner := wfLast.declarationOf?_classOf? second
    rw [same, wfLast.declarationOf?_classOf? first] at owner
    exact (Option.some.inj owner).symm
  · rintro rfl
    rw [first] at second
    exact (Option.some.inj second).symm

/-- Whatever declarations are interned, the result is numbered, and it is what the plain table
gives. One more step gives the class of the plain table and only appends to it, and from then on
this class is that of the declaration and of no other. -/
theorem internAll_numbered (naming : ClassNaming) (classPrefix : Option String)
    (ds : List Declaration) :
    let x := (empty naming classPrefix).internAll ds
    x.table = ((ClassTable.empty naming classPrefix).internAll ds).2 ∧
      x.table.naming = naming ∧ x.table.lead = classPrefix.getD "" ∧ x.Numbered ∧
      ∀ d, (x.intern d).1 = some (x.table.intern d).1 ∧
        (x.intern d).2.table = (x.table.intern d).2 ∧
        x.table.entries <+: (x.intern d).2.table.entries ∧
        ∀ more e, ((x.internAll (d :: more)).intern e).1 = (x.intern d).1 ↔ e = d := by
  intro x
  have up : x.Consistent := ((consistent_empty naming classPrefix).internAll ds).1
  have table : x.table = ((ClassTable.empty naming classPrefix).internAll ds).2 :=
    ((consistent_empty naming classPrefix).internAll ds).2
  have grown := ClassTable.extends_internAll (ClassTable.empty naming classPrefix) ds
  have wf : x.table.WellFormed := by
    rw [table]
    exact (ClassTable.wellFormed_empty naming classPrefix).internAll ds
  refine ⟨table, ?_, ?_, up.numbered wf, ?_⟩
  · rw [table, grown.naming]
    rfl
  · rw [table, grown.lead]
    rfl
  · intro d
    obtain ⟨-, given, nextTable⟩ := up.intern d
    refine ⟨given, nextTable, ?_, up.intern_later wf d⟩
    rw [nextTable]
    exact (x.table.extends_intern d).entries

end ClassIndex

end AtomicMarkup
