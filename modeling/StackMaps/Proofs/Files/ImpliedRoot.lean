import StackMaps.ClassPath.Basic
import StackMaps.Proofs.Files.Path

/-! The root that the place of a class file implies. The parent of a path has all its components but
the last one, so that leaving the packages one by one, from the innermost, ends at what comes before
them in the path. -/

namespace StackMaps

namespace Path

variable {p : Path} {others : List (List Char)} {s first : List Char}
  {above : List PathComponent}

theorem exists_component? (counts : isIdle s = false) : ∃ c, component? s = some c := by
  rw [component?, counts, if_neg Bool.false_ne_true]
  split <;> exact ⟨_, rfl⟩

theorem exists_leading? (written : first ≠ []) (others : List (List Char)) :
    ∃ c, leading? first others = some c := by
  rw [leading?, if_neg written]
  by_cases dot : first = ['.']
  · exact ⟨.current, if_pos dot⟩
  · rw [if_neg dot]
    exact exists_component? (by simp [isIdle, written, dot])

theorem filterMap_dropWhile_isIdle (ss : List (List Char)) :
    (ss.dropWhile isIdle).filterMap component? = ss.filterMap component? := by
  have silent : ∀ s ∈ ss.takeWhile isIdle, isIdle s = true := fun s => List.mem_takeWhile_imp
  have whole : ss.takeWhile isIdle ++ ss.dropWhile isIdle = ss := List.takeWhile_append_dropWhile
  rw [← congrArg (List.filterMap component?) whole, List.filterMap_append,
    filterMap_component?_idle silent, List.nil_append]

theorem segments_ne_nil (p : Path) : p.segments ≠ [] := StackMaps.segments_ne_nil p.text.toList

theorem filterMap_component?_of_dropWhile {behind : List (List Char)}
    (last : others.reverse.dropWhile isIdle = s :: behind) :
    ∃ c, others.filterMap component? = behind.reverse.filterMap component? ++ [c] := by
  have counts : isIdle s = false := by
    simpa [last] using List.head?_dropWhile_not isIdle others.reverse
  obtain ⟨c, own⟩ := exists_component? counts
  refine ⟨c, ?_⟩
  rw [← List.reverse_inj, ← List.filterMap_reverse, ← filterMap_dropWhile_isIdle, last,
    List.filterMap_cons, own]
  simp

theorem components_cut {kept : List (List Char)} (single : ∀ t ∈ first :: kept, '/' ∉ t)
    (more : others ≠ []) :
    (if first.isEmpty && kept.isEmpty then ⟨"/"⟩ else ofSegments (first :: kept) : Path).components =
      (leading? first others).toList ++ kept.filterMap component? := by
  by_cases root : first = [] ∧ kept = []
  · obtain ⟨rfl, rfl⟩ := root
    rw [leading?_congr (fun _ => more) (fun _ => List.cons_ne_nil [] [])]
    rfl
  · rw [if_neg (by simpa using root),
      components_of_segments (segments_ofSegments (List.cons_ne_nil first kept) single),
      leading?_congr (fun empty none => root ⟨empty, none⟩) fun _ => more]

theorem parent?_spec (p : Path) :
    match p.parent? with
    | some q => ∃ c, p.components = q.components ++ [c]
    | none => p.components = [] ∨ p.components = [.root] := by
  obtain ⟨first, others, split⟩ := List.exists_cons_of_ne_nil p.segments_ne_nil
  have single : ∀ t ∈ first :: others, '/' ∉ t := fun t there =>
    slash_notMem_of_mem_segments (show t ∈ p.segments from split ▸ there)
  rw [components_of_segments split]
  simp only [parent?, split]
  cases last : others.reverse.dropWhile isIdle with
  | nil =>
    -- No segment says anything but perhaps the first one, which stands for the only component.
    have nothing : others.filterMap component? = [] := by
      rw [← List.reverse_eq_nil_iff, ← List.filterMap_reverse, ← filterMap_dropWhile_isIdle, last]
      rfl
    simp only [nothing, List.append_nil]
    by_cases empty : first = []
    · cases others <;> simp [empty, leading?]
    · obtain ⟨c, leads⟩ := exists_leading? empty others
      simp only [List.isEmpty_iff, empty, if_false, leads]
      exact ⟨c, rfl⟩
  | cons s behind =>
    obtain ⟨c, rest⟩ := filterMap_component?_of_dropWhile last
    have more : others ≠ [] := by
      rintro rfl
      cases last
    have stays : (behind.dropWhile isIdle).reverse ⊆ others := fun t there => by
      have inside : t ∈ behind := (List.dropWhile_suffix isIdle).subset (List.mem_reverse.1 there)
      have within : t ∈ others.reverse.dropWhile isIdle := last ▸ List.mem_cons_of_mem s inside
      exact List.mem_reverse.1 ((List.dropWhile_suffix isIdle).subset within)
    have same : behind.reverse.filterMap component? =
        (behind.dropWhile isIdle).reverse.filterMap component? := by
      rw [List.filterMap_reverse, ← filterMap_dropWhile_isIdle, ← List.filterMap_reverse]
    have single' : ∀ t ∈ first :: (behind.dropWhile isIdle).reverse, '/' ∉ t := fun t there =>
      single t (List.cons_subset_cons first stays there)
    have cut := components_cut single' more
    simp only [← apply_ite some]
    exact ⟨c, by rw [cut, rest, same, List.append_assoc]⟩

theorem components_eq_nil_iff : p.components = [] ↔ p.text.isEmpty = true := by
  constructor
  · intro nothing
    obtain ⟨first, others, split⟩ := List.exists_cons_of_ne_nil p.segments_ne_nil
    rw [components_of_segments split, List.append_eq_nil_iff, Option.toList_eq_nil_iff] at nothing
    have empty : first = [] := by
      by_contra written
      obtain ⟨c, leads⟩ := exists_leading? written others
      rw [leads] at nothing
      cases nothing.1
    have alone : others = [] := by simpa [leading?, empty] using nothing.1
    have whole : ['/'].intercalate (p.text.toList.splitOn '/') = p.text.toList :=
      List.intercalate_splitOn '/'
    rw [← segments_of_text rfl, split, empty, alone, List.intercalate_singleton] at whole
    exact String.isEmpty_iff.2 (String.toList_eq_nil_iff.1 whole.symm)
  · intro empty
    have text : p.text.toList = [] := String.toList_eq_nil_iff.2 (String.isEmpty_iff.1 empty)
    exact components_of_segments (segments_of_text text)

theorem fileName?_eq_some {name : String} :
    p.fileName? = some name ↔ p.components.getLast? = some (.named name) := by
  unfold fileName?
  split
  next last => simp [last]
  next other =>
    simp only [reduceCtorEq, false_iff]
    exact other name

theorem exists_parent? {name : String} (own : p.fileName? = some name) :
    ∃ q, p.parent? = some q ∧ p.components = q.components ++ [.named name] := by
  have last := fileName?_eq_some.1 own
  have parent := p.parent?_spec
  cases above : p.parent? with
  | none =>
    rw [above] at parent
    obtain nothing | root := parent
    · rw [nothing] at last
      cases last
    · rw [root] at last
      cases last
  | some q =>
    rw [above] at parent
    obtain ⟨c, split⟩ := parent
    rw [split, List.getLast?_concat] at last
    cases last
    exact ⟨q, rfl, split⟩

theorem leaving_iff {packages : List (List Char)} :
    (∃ q, p.leaving packages = some q ∧ q.components = above) ↔
      p.components = above ++ entries packages.reverse := by
  -- The innermost package comes first, so each step takes the last component away.
  induction packages generalizing p with
  | nil => simp [leaving, entries]
  | cons package outer ih =>
    have names : entries (package :: outer).reverse =
        entries outer.reverse ++ [.named (String.ofList package)] := by
      simp [entries]
    rw [names, ← List.append_assoc]
    constructor
    · rintro ⟨q, left, rfl⟩
      rw [leaving] at left
      split at left
      next own =>
        obtain ⟨parent, up, split⟩ := exists_parent? own
        rw [up] at left
        rw [split, ih.1 ⟨q, left, rfl⟩]
      next => cases left
    · intro split
      have own : p.fileName? = some (String.ofList package) := by
        rw [fileName?_eq_some, split, List.getLast?_concat]
      obtain ⟨parent, up, split'⟩ := exists_parent? own
      rw [leaving, if_pos own, up]
      exact ih.2 (List.append_cancel_right (split'.symm.trans split))

/-- A root for what is left above the packages: a path of these components, or a dot if there are
none. -/
def StandsFor (root : Path) (above : List PathComponent) : Prop :=
  if above = [] then root = ⟨"."⟩ else root.components = above

section

variable {n : BinaryName} {root directory : Path}

theorem standsFor_components (q : Path) :
    (if q.text.isEmpty then ⟨"."⟩ else q : Path).StandsFor q.components := by
  by_cases empty : q.text.isEmpty = true
  · rw [if_pos empty, StandsFor, if_pos (components_eq_nil_iff.2 empty)]
  · rw [if_neg empty, StandsFor, if_neg (mt components_eq_nil_iff.1 empty)]

theorem impliedRoot_eq_some : p.impliedRoot n = some root ↔
    ∃ directory q, p.parent? = some directory ∧ directory.leaving n.packages.reverse = some q ∧
      (if q.text.isEmpty then ⟨"."⟩ else q) = root := by
  simp [impliedRoot, Option.bind_eq_some_iff]

/-- The packages are the last components of the directory that the file is in, and the root stands
for the others. -/
theorem directory_of_impliedRoot (implied : p.impliedRoot n = some root) :
    ∃ directory above, p.parent? = some directory ∧
      directory.components = above ++ entries n.packages ∧ root.StandsFor above := by
  obtain ⟨directory, q, up, left, rfl⟩ := impliedRoot_eq_some.1 implied
  have layout := leaving_iff.1 ⟨q, left, rfl⟩
  rw [List.reverse_reverse] at layout
  exact ⟨directory, q.components, up, layout, q.standsFor_components⟩

theorem exists_impliedRoot (up : p.parent? = some directory)
    (layout : directory.components = above ++ entries n.packages) :
    ∃ root, p.impliedRoot n = some root ∧ root.StandsFor above := by
  rw [← List.reverse_reverse n.packages] at layout
  obtain ⟨q, left, rfl⟩ := leaving_iff.2 layout
  exact ⟨_, impliedRoot_eq_some.2 ⟨directory, q, up, left, rfl⟩, q.standsFor_components⟩

end

end Path

namespace BinaryName

open StackMaps.Path

variable {n : BinaryName} {root directory : Path} {above : List PathComponent}

def file (n : BinaryName) : Path := ⟨String.ofList (n.simpleName ++ ".class".toList)⟩

theorem entries_fileNames (n : BinaryName) :
    entries n.fileNames = entries n.packages ++ [.named n.file.text] := by
  simp [fileNames, entries, file]

theorem components_join_path (directory : Path) (n : BinaryName) :
    (directory.join n.path).components =
      directory.components ++ entries n.packages ++ [.named n.file.text] := by
  obtain ⟨first, rest, split, counts⟩ := n.exists_segments_path
  rw [components_join split counts, components_path, entries_fileNames, List.append_assoc]

theorem components_join_file (directory : Path) (n : BinaryName) :
    (directory.join n.file).components = directory.components ++ [.named n.file.text] := by
  have entry : ∀ s ∈ [n.simpleName ++ ".class".toList], IsEntry s := by
    rintro s there
    obtain rfl := List.mem_singleton.1 there
    exact isEntry_fileNames (List.mem_append_right _ List.mem_cons_self)
  have own : n.file = ofSegments [n.simpleName ++ ".class".toList] := (ofSegments_singleton _).symm
  have split := segments_ofSegments (List.cons_ne_nil _ []) fun s there => (entry s there).single
  have components := components_ofSegments entry
  rw [← own] at split components
  rw [components_join split (entry _ List.mem_cons_self).isIdle_eq, components]
  rfl

theorem components_location (layout : directory.components = above ++ entries n.packages)
    (stands : root.StandsFor above) :
    ((⟨.directory, root⟩ : ClassPathEntry).location n).components =
      (if above = [] then [.current] else []) ++ (directory.join n.file).components := by
  have location : ((⟨.directory, root⟩ : ClassPathEntry).location n).components =
      root.components ++ entries n.packages ++ [.named n.file.text] := components_join_path root n
  rw [location, components_join_file, layout]
  unfold StandsFor at stands
  split at stands
  next nothing =>
    rw [stands, nothing, if_pos rfl, List.nil_append, List.append_assoc]
    rfl
  next some =>
    rw [stands, if_neg some]
    rfl

/-- The root that the place of a class file implies undoes the layout of class files. Where the class
belongs below a directory, it is this directory, as paths are the same if their components are.
Whatever it is, the directory of the file consists of the root, or of nothing if no component was left
and the root is a dot for that, and of the packages; so the classes of the same package are looked for
below this root in the directory of the file. -/
theorem impliedRoot_inverts (n : BinaryName) :
    (∀ r : Path, ∃ root, (r.join n.path).impliedRoot n = some root ∧
      if r.text.isEmpty then root = ⟨"."⟩ else root.components = r.components) ∧
    ∀ input root : Path, input.impliedRoot n = some root →
      ∃ directory above, input.parent? = some directory ∧
        (∃ own, input.components = directory.components ++ [own]) ∧
        directory.components = above ++ entries n.packages ∧
        (if above = [] then root = ⟨"."⟩ else root.components = above) ∧
        ∀ n' : BinaryName, n'.packages = n.packages →
          ((⟨.directory, root⟩ : ClassPathEntry).location n').components =
            (if above = [] then [.current] else []) ++ (directory.join n'.file).components := by
  constructor
  · intro r
    have file : (r.join n.path).fileName? = some n.file.text := by
      rw [fileName?_eq_some, components_join_path, List.getLast?_concat]
    obtain ⟨directory, up, split⟩ := exists_parent? file
    rw [components_join_path] at split
    obtain ⟨root, implied, stands⟩ := exists_impliedRoot up (List.append_cancel_right split).symm
    refine ⟨root, implied, ?_⟩
    simpa only [StandsFor, components_eq_nil_iff] using stands
  · intro input root implied
    obtain ⟨directory, above, up, layout, stands⟩ := directory_of_impliedRoot implied
    have parent := input.parent?_spec
    rw [up] at parent
    refine ⟨directory, above, up, parent, layout, stands, fun n' same => ?_⟩
    exact components_location (same ▸ layout) stands

def road : BinaryName := ⟨"com/acme/Road", by decide +kernel⟩
def runner : BinaryName := ⟨"com/acme/Runner", by decide +kernel⟩

theorem impliedRoot_inverts_road :
    (∃ root, ((⟨"/src/./"⟩ : Path).join road.path).impliedRoot road = some root ∧
      root.components = [.root, .named "src"]) ∧
    (⟨"com//acme/Road.class"⟩ : Path).impliedRoot road = some ⟨"."⟩ ∧
    runner.packages = road.packages ∧
    ((⟨.directory, ⟨"."⟩⟩ : ClassPathEntry).location runner).components =
      .current :: ((⟨"com//acme"⟩ : Path).join runner.file).components := by
  obtain ⟨below, leads⟩ := impliedRoot_inverts road
  have implied : (⟨"com//acme/Road.class"⟩ : Path).impliedRoot road = some ⟨"."⟩ := by decide +kernel
  have same : runner.packages = road.packages := by decide +kernel
  refine ⟨below ⟨"/src/./"⟩, implied, same, ?_⟩
  obtain ⟨directory, above, up, _, layout, _, beside⟩ := leads _ _ implied
  have up' : (⟨"com//acme/Road.class"⟩ : Path).parent? = some ⟨"com//acme"⟩ := by decide +kernel
  obtain rfl := Option.some.inj (up'.symm.trans up)
  have packages : (⟨"com//acme"⟩ : Path).components = [] ++ entries road.packages := by decide +kernel
  have none := List.append_cancel_right (layout.symm.trans packages)
  rw [beside runner same, none]
  rfl

end BinaryName

end StackMaps
