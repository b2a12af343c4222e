import WordScript.Files
import WordScript.Proofs.Success
import WordScript.Proofs.Text

/-!
# Reading what was written

Writing a file makes no directory and takes none away: the file goes into a directory that is there.
So every path that could be written before can be written afterwards, and a written file is found
again by its path.

The path with another extension leads to a file next to the old one. Its name has a dot in it, which
tells it from the null device.
-/

namespace WordScript

/-! ### The last name of a path -/

namespace Path

theorem slash_not_mem_parts (h : part ∈ parts path) : ∀ c ∈ part, (c == '/') = false :=
  (cut_splitWhere _ _).solid part h

theorem mem_of_mem_stem {name : List Char} (h : c ∈ stem name) : c ∈ name := by
  rw [stem] at h
  split at h
  · exact h
  · next heq =>
    have hdrop : c ∈ (name.reverse.dropWhile (· != '.')).drop 1 := List.mem_reverse.mp h
    exact List.mem_reverse.mp ((List.dropWhile_sublist _).mem (List.mem_of_mem_drop hdrop))

theorem splitLast?_dropWhile (l : List (List Char)) :
    splitLast? (l.dropWhile (· == [])) = splitLast? l := by
  induction l with
  | nil => rfl
  | cons part rest ih =>
    by_cases h : part = []
    · rw [List.dropWhile_cons_of_pos (by simpa using h), ih, splitLast?, if_pos (.inl h)]
    · rw [List.dropWhile_cons_of_neg (by simpa using h)]

structure Named (path : String) : Prop where
  ne_dot : (route path).last ≠ ['.']
  ne_dots : (route path).last ≠ ['.', '.']

/-- What the last name is cut off from does not end in empty parts, and neither part has a slash in
it. -/
theorem Named.splitLast? (h : Named path) : ∃ before,
    Path.splitLast? (parts path).reverse = some (before, (route path).last) ∧
    ∀ part ∈ (route path).last :: before, ∀ c ∈ part, (c == '/') = false := by
  obtain ⟨hdot, hdots⟩ := h
  rw [route] at hdot hdots ⊢
  generalize hl : (parts path).reverse.dropWhile (· == []) = l at hdot hdots ⊢
  cases l with
  | nil => exact absurd rfl hdot
  | cons last before =>
    have hempty : last ≠ [] := by
      have hhead := List.head?_dropWhile_not (· == []) (parts path).reverse
      rw [hl] at hhead
      simpa using hhead
    refine ⟨before, ?_, ?_⟩
    · rw [← splitLast?_dropWhile, hl]
      simp_all [Path.splitLast?]
    · intro part hpart
      have hmem : part ∈ (parts path).reverse := (List.dropWhile_sublist _).mem (hl ▸ hpart)
      exact slash_not_mem_parts (List.mem_reverse.mp hmem)

theorem Named.last_withExtension (h : Named path) (solid : extension.toList.all (· != '/')) :
    (route (withExtension path extension)).last = stem (route path).last ++ '.' ::
      extension.toList := by
  obtain ⟨before, hsplit, hsolid⟩ := h.splitLast?
  obtain ⟨hlast, hbefore⟩ := List.forall_mem_cons.mp hsolid
  have hname : ∀ c ∈ stem (route path).last ++ '.' :: extension.toList, (c == '/') = false := by
    intro c hc
    rcases List.mem_append.mp hc with hc | hc
    · exact hlast c (mem_of_mem_stem hc)
    · rcases List.mem_cons.mp hc with rfl | hc
      · rfl
      · simpa using List.all_eq_true.mp solid c hc
  have hparts : parts (withExtension path extension) =
      ((stem (route path).last ++ '.' :: extension.toList) :: before).reverse := by
    rw [withExtension, hsplit, parts, String.toList_ofList]
    refine (cut_intercalate (by simp) (fun part hpart => ?_) rfl).splitWhere_eq
    exact List.forall_mem_cons.mpr ⟨hname, hbefore⟩ part (List.mem_reverse.mp hpart)
  rw [route, hparts]
  simp

end Path

/-! ### Directories -/

namespace Place

theorem contains_iff {p q : Place} : p.contains q ↔ p.anchor = q.anchor ∧ p.names <+: q.names ∧
    p.names ≠ q.names := by
  simp [contains, and_assoc]

theorem contains_trans {p q r : Place} (h : p.contains q) (h' : q.contains r) : p.contains r := by
  rw [contains_iff] at h h' ⊢
  obtain ⟨ha, hp, hne⟩ := h
  obtain ⟨ha', hp', hne'⟩ := h'
  refine ⟨ha.trans ha', hp.trans hp', fun heq => hne ?_⟩
  exact hp.eq_of_length_le (heq ▸ hp'.length_le)

theorem contains_child {p q : Place} (h : p.contains (q.child name)) : p = q ∨ p.contains q := by
  rw [contains_iff] at h
  obtain ⟨ha, hp, hne⟩ := h
  have hp : p.names <+: q.names := by
    rcases List.prefix_concat_iff.mp hp with heq | hp
    · exact absurd heq hne
    · exact hp
  by_cases heq : p.names = q.names
  · left
    cases p
    cases q
    simp_all [child]
  · exact .inr (contains_iff.mpr ⟨ha, hp, heq⟩)

theorem parent_names (p : Place) : p.parent.names = [] ∨ p.parent.contains p := by
  obtain ⟨anchor, names⟩ := p
  cases names with
  | nil =>
    left
    cases anchor <;> rfl
  | cons name names =>
    right
    refine contains_iff.mpr ⟨rfl, List.dropLast_prefix _, fun heq => ?_⟩
    have hlen := congrArg List.length heq
    simp [parent] at hlen

end Place

namespace Files

theorem isDirectory_iff {f : Files} : f.isDirectory p ↔
    p.names = [] ∨ p.contains .nullDevice ∨ ∃ entry ∈ f.entries, p.contains entry.1 := by
  simp [isDirectory, or_assoc]

theorem isDirectory_of_contains {f : Files} (hp : p.contains q) (h : f.isDirectory q) :
    f.isDirectory p := by
  rw [isDirectory_iff] at h ⊢
  rcases h with hnil | hnull | ⟨entry, hmem, hentry⟩
  · left
    have hprefix := (Place.contains_iff.mp hp).2.1
    rwa [hnil, List.prefix_nil] at hprefix
  · exact .inr (.inl (Place.contains_trans hp hnull))
  · exact .inr (.inr ⟨entry, hmem, Place.contains_trans hp hentry⟩)

theorem enter_isDirectory {f : Files} (hp : f.isDirectory p) (h : f.enter p part = .ok q) :
    f.isDirectory q := by
  rw [enter] at h
  split at h
  · cases h
    exact hp
  split at h
  · cases h
    rcases p.parent_names with hnil | hcontains
    · exact isDirectory_iff.mpr (.inl hnil)
    · exact isDirectory_of_contains hcontains hp
  split at h
  · cases h
  split at h
  · next hchild =>
    cases h
    exact hchild
  · split at h <;> cases h

theorem walk_isDirectory {f : Files} (hp : f.isDirectory p) (h : f.walk p way = .ok q) :
    f.isDirectory q := by
  induction way generalizing p with
  | nil =>
    cases h
    exact hp
  | cons part way ih =>
    rw [walk, bind_eq_ok] at h
    obtain ⟨next, henter, h⟩ := h
    exact ih (enter_isDirectory hp henter) h

/-- Ways along directories are open wherever the same directories are. -/
theorem walk_of_isDirectory {f f' : Files} (same : ∀ p, f'.isDirectory p = f.isDirectory p)
    (h : f.walk p way = .ok q) : f'.walk p way = .ok q := by
  have henter : ∀ p part q, f.enter p part = .ok q → f'.enter p part = .ok q := by
    intro p part q h
    simp only [enter, same] at h ⊢
    grind
  induction way generalizing p with
  | nil => exact h
  | cons part way ih =>
    rw [walk, bind_eq_ok] at h ⊢
    obtain ⟨next, hnext, h⟩ := h
    exact ⟨next, henter _ _ _ hnext, ih h⟩

/-! ### Places of paths -/

/-- What a path needs in order to lead to a place, whatever lies there. -/
structure Leads (f : Files) (path : String) (directory place : Place) : Prop where
  nonempty : ¬path.isEmpty
  short : ¬Path.maxLength < byteLength path.toList
  way : f.walk (if (Path.route path).fromRoot then .root else .workingDirectory)
    (Path.route path).before = .ok directory
  named : Path.Named path
  shortName : ¬Path.maxNameLength < byteLength (Path.route path).last
  place_eq : place = directory.child (Path.route path).last
  free : ¬f.isDirectory place

theorem locate_eq_ok {f : Files} : f.locate refuseSlash path = .ok place ↔
    (∃ directory, f.Leads path directory place) ∧
    ¬((Path.route path).slash ∧ refuseSlash) ∧
    ¬((Path.route path).slash ∧ (f.content? place).isSome) := by
  simp only [locate, refuse_eq_ok, bind_eq_ok, pure_eq_ok]
  constructor
  · rintro ⟨nonempty, short, directory, way, named, hrefuse, shortName, free, hslash, rfl⟩
    exact ⟨⟨directory, nonempty, short, way, ⟨(named <| .inl ·), (named <| .inr ·)⟩, shortName, rfl,
      free⟩, hrefuse, hslash⟩
  · rintro ⟨⟨directory, nonempty, short, way, named, shortName, rfl, free⟩, hrefuse, hslash⟩
    exact ⟨nonempty, short, directory, way, (·.elim named.ne_dot named.ne_dots), hrefuse, shortName,
      free, hslash, rfl⟩

theorem Leads.isDirectory {f : Files} (h : f.Leads path directory place) :
    f.isDirectory directory := by
  refine walk_isDirectory ?_ h.way
  split <;> exact isDirectory_iff.mpr (.inl rfl)

theorem read_eq_ok {f : Files} :
    f.read path = .ok text ↔ ∃ place, f.locate false path = .ok place ∧
    f.content? place = some text := by
  rw [read, bind_eq_ok]
  refine exists_congr fun place => and_congr_right fun _ => ?_
  cases f.content? place with
  | none => simp [throw_ne_ok]
  | some content => simp [pure_eq_ok]

theorem named_of_read {f : Files} (h : f.read path = .ok text) : Path.Named path := by
  obtain ⟨place, hplace, -⟩ := read_eq_ok.mp h
  obtain ⟨⟨directory, leads⟩, -⟩ := locate_eq_ok.mp hplace
  exact leads.named

/-! ### Writing -/

def put (f : Files) (place : Place) (content : String) : Files :=
  ⟨(place, content) :: f.entries.filter (·.1 ≠ place)⟩

theorem write_eq_ok {f : Files} : f.write path content = .ok f' ↔
    ∃ place, f.locate true path = .ok place ∧
    (if place = .nullDevice then f else f.put place content) = f' := by
  rw [write, bind_eq_ok]
  refine exists_congr fun place => and_congr_right fun _ => ?_
  split
  · exact pure_eq_ok
  · exact pure_eq_ok

/-- A new file goes into a directory that was there, so no place turns into a directory or stops
being one. -/
theorem Leads.isDirectory_put {f : Files} (h : f.Leads path directory place)
    (content : String) (p : Place) : (f.put place content).isDirectory p = f.isDirectory p := by
  rw [Bool.eq_iff_iff]
  constructor
  · intro hp
    rcases isDirectory_iff.mp hp with hnil | hnull | ⟨entry, hmem, hentry⟩
    · exact isDirectory_iff.mpr (.inl hnil)
    · exact isDirectory_iff.mpr (.inr (.inl hnull))
    · rcases List.mem_cons.mp hmem with rfl | hmem
      · rw [h.place_eq] at hentry
        rcases Place.contains_child hentry with rfl | hcontains
        · exact h.isDirectory
        · exact isDirectory_of_contains hcontains h.isDirectory
      · exact isDirectory_iff.mpr (.inr (.inr ⟨entry, (List.mem_filter.mp hmem).1, hentry⟩))
  · intro hp
    rcases isDirectory_iff.mp hp with hnil | hnull | ⟨entry, hmem, hentry⟩
    · exact isDirectory_iff.mpr (.inl hnil)
    · exact isDirectory_iff.mpr (.inr (.inl hnull))
    · refine isDirectory_iff.mpr (.inr (.inr ?_))
      by_cases heq : entry.1 = place
      · exact ⟨(place, content), by simp [put], heq ▸ hentry⟩
      · exact ⟨entry, by simp [put, hmem, heq], hentry⟩

theorem locate_of_isDirectory {f f' : Files} (same : ∀ p, f'.isDirectory p = f.isDirectory p)
    (h : f.locate true path = .ok place) : f'.locate refuseSlash path = .ok place := by
  obtain ⟨⟨directory, leads⟩, hrefuse, -⟩ := locate_eq_ok.mp h
  have hslash : ¬(Path.route path).slash := fun hslash => hrefuse ⟨hslash, rfl⟩
  refine locate_eq_ok.mpr ⟨⟨directory, ?_⟩, (hslash ·.1), (hslash ·.1)⟩
  exact { leads with way := walk_of_isDirectory same leads.way, free := same place ▸ leads.free }

theorem write_isDirectory {f : Files} (h : f.write path content = .ok f') (p : Place) :
    f'.isDirectory p = f.isDirectory p := by
  obtain ⟨place, hplace, rfl⟩ := write_eq_ok.mp h
  split
  · rfl
  · obtain ⟨⟨directory, leads⟩, -⟩ := locate_eq_ok.mp hplace
    exact leads.isDirectory_put content p

/-- Whatever text is written to the path, there is nothing in the way. -/
def Takes (f : Files) (path : String) : Prop := ∀ content, ∃ f', f.write path content = .ok f'

theorem takes_iff {f : Files} : f.Takes path ↔ ∃ place, f.locate true path = .ok place := by
  constructor
  · intro h
    obtain ⟨f', hf'⟩ := h ""
    obtain ⟨place, hplace, -⟩ := write_eq_ok.mp hf'
    exact ⟨place, hplace⟩
  · rintro ⟨place, hplace⟩ content
    exact ⟨_, write_eq_ok.mpr ⟨place, hplace, rfl⟩⟩

theorem Takes.write {f : Files} (h : f.Takes path) (written : f.write other content = .ok f') :
    f'.Takes path := by
  obtain ⟨place, hplace⟩ := takes_iff.mp h
  exact takes_iff.mpr ⟨place, locate_of_isDirectory (write_isDirectory written) hplace⟩

theorem content?_put {f : Files} (hne : place ≠ .nullDevice) :
    (f.put place content).content? place = some content := by
  simp [content?, put, hne]

theorem Leads.ne_nullDevice {f : Files} (h : f.Leads path directory place)
    (dot : '.' ∈ (Path.route path).last) : place ≠ .nullDevice := by
  rintro rfl
  have hnames : ["dev".toList, "null".toList] = directory.names ++ [(Path.route path).last] :=
    congrArg Place.names h.place_eq
  have hlast := congrArg List.getLast? hnames
  rw [List.getLast?_concat] at hlast
  rw [← Option.some.inj hlast] at dot
  exact absurd dot (by decide)

theorem read_write {f : Files} (h : f.write path content = .ok f')
    (dot : '.' ∈ (Path.route path).last) : f'.read path = .ok content := by
  have hsame := write_isDirectory h
  obtain ⟨place, hplace, hput⟩ := write_eq_ok.mp h
  obtain ⟨⟨directory, leads⟩, -⟩ := locate_eq_ok.mp hplace
  have hne := leads.ne_nullDevice dot
  refine read_eq_ok.mpr ⟨place, locate_of_isDirectory hsame hplace, ?_⟩
  rw [← hput, if_neg hne]
  exact content?_put hne

/-- What is written next to a file that can be read, under its name with another extension, can be
read back. -/
theorem read_write_withExtension {f g : Files} (found : g.read path = .ok text)
    (solid : extension.toList.all (· != '/'))
    (h : f.write (Path.withExtension path extension) content = .ok f') :
    f'.read (Path.withExtension path extension) = .ok content := by
  refine read_write h ?_
  rw [(named_of_read found).last_withExtension solid]
  simp

end Files

end WordScript
