import DelegateProtocol.Lib.ZipArchive
import DelegateProtocol.WorkspaceFixtures

/-!
# Workspaces that are zipped and extracted again

The archive of a whole workspace holds its files under their relative paths. A
worker that extracts it gets the files back, with the directories above them; a
directory that no file lies below is in no entry.
-/

namespace WorkspaceReconstruction

open PosixPath Runtime WorkspaceFixtures ZipArchive

def direct : Forest → List (List String × List UInt8)
  | .nil => []
  | .cons name (.file content) rest => ([name.text], content) :: direct rest
  | .cons _ (.dir _) rest => direct rest

mutual

/-- The files below a node, each with its place from there, as the walk meets them. -/
def below : Tree → List (List String × List UInt8)
  | .file _ => []
  | .dir entries => direct entries ++ belowDirs entries

def belowDirs : Forest → List (List String × List UInt8)
  | .nil => []
  | .cons name node rest =>
    (below node).map (fun f => (name.text :: f.1, f.2)) ++ belowDirs rest

end

def kindOf : Tree → Kind
  | .file content => .file content
  | .dir _ => .dir

/-- What has been extracted is the tree. -/
def SameTree (c : Contents) (node : Tree) : Prop := ∀ p, c p = (node.find p).map kindOf

/-- Every directory below the root has a file somewhere below it. -/
def NoEmptyDirs (node : Tree) : Prop :=
  ∀ p entries, p ≠ [] → node.find p = some (.dir entries) →
    ∃ q content, node.find (p ++ q) = some (.file content)

/-- The name and the content that are written for a member. -/
def written (m : Member) : String × List UInt8 := (writtenName m.arcname, m.content)

section Files
variable {p : List String} {content : List UInt8}

theorem mem_direct {entries : Forest} (distinct : entries.Distinct) :
    (p, content) ∈ direct entries ↔ ∃ n, p = [n] ∧ entries.get? n = some (.file content) := by
  induction entries using direct.induct with
  | case1 => simp [direct, Forest.get?]
  | case2 name content' rest ih =>
    rw [direct, List.mem_cons, ih distinct.2.2]
    simp only [get?_cons_iff distinct]
    constructor
    · rintro (h | ⟨n, hp, hget⟩)
      · cases h
        exact ⟨name.text, rfl, Or.inl ⟨rfl, rfl⟩⟩
      · exact ⟨n, hp, Or.inr hget⟩
    · rintro ⟨n, rfl, ⟨rfl, he⟩ | hget⟩
      · cases he
        exact Or.inl rfl
      · exact Or.inr ⟨n, rfl, hget⟩
  | case3 name entries' rest ih =>
    rw [direct, ih distinct.2.2]
    simp [get?_cons_iff distinct]

mutual

/-- The files the walk meets are those that are found below the node. -/
theorem mem_below {node : Tree} {p : List String} {content : List UInt8} (distinct : node.Distinct) :
    (p, content) ∈ below node ↔ p ≠ [] ∧ node.find p = some (.file content) := by
  match node with
  | .file content' =>
    cases p with
    | nil => simp [below]
    | cons c p => simp [below, Tree.find]
  | .dir entries =>
    rw [below, List.mem_append, mem_direct distinct, mem_belowDirs distinct]
    cases p with
    | nil => simp
    | cons c p =>
      simp only [Tree.find]
      cases hget : entries.get? c with
      | none => simp [hget]
      | some found =>
        cases p with
        | nil => simp [hget, Tree.find]
        | cons d p => simp [hget]

theorem mem_belowDirs {entries : Forest} {p : List String} {content : List UInt8}
    (distinct : entries.Distinct) : (p, content) ∈ belowDirs entries ↔
      ∃ n q node, p = n :: q ∧ q ≠ [] ∧ entries.get? n = some node ∧
        node.find q = some (.file content) := by
  match entries with
  | .nil => simp [belowDirs, Forest.get?]
  | .cons name node rest =>
    rw [belowDirs, List.mem_append, mem_belowDirs distinct.2.2]
    simp only [get?_cons_iff distinct]
    constructor
    · rintro (h | ⟨n, q, found, hp, hq, hget, hfind⟩)
      · obtain ⟨f, hf, he⟩ := List.mem_map.mp h
        cases he
        obtain ⟨hq, hfind⟩ := (mem_below distinct.2.1).mp hf
        exact ⟨name.text, f.1, node, rfl, hq, Or.inl ⟨rfl, rfl⟩, hfind⟩
      · exact ⟨n, q, found, hp, hq, Or.inr hget, hfind⟩
    · rintro ⟨n, q, found, rfl, hq, ⟨rfl, rfl⟩ | hget, hfind⟩
      · left
        exact List.mem_map.mpr ⟨(q, content), (mem_below distinct.2.1).mpr ⟨hq, hfind⟩, rfl⟩
      · exact Or.inr ⟨n, q, found, rfl, hq, hget, hfind⟩

end

theorem below_compatible {node : Tree} (distinct : node.Distinct) : Compatible (below node) := by
  rintro ⟨p, content⟩ hf ⟨q, content'⟩ hg ⟨rest, rfl⟩
  obtain ⟨-, hp⟩ := (mem_below distinct).mp hf
  obtain ⟨-, hq⟩ := (mem_below distinct).mp hg
  rw [find_append, hp, Option.bind_some] at hq
  cases rest with
  | nil =>
    simp only [Tree.find, Option.some.injEq, Tree.file.injEq] at hq
    rw [hq, List.append_nil]
  | cons c rest => cases hq

/-- What is extracted from the files is the tree if no directory was empty. -/
theorem sameTree_iff {node : Tree} (distinct : node.Distinct) (hdir : node.isDir = true) :
    SameTree (contentsOf (below node)) node ↔ NoEmptyDirs node := by
  have compatible := below_compatible distinct
  have found {q : List String} {f : List String × List UInt8} (hf : f ∈ below node)
      (hq : q <+: f.1) : ∃ r content, node.find (q ++ r) = some (.file content) := by
    obtain ⟨r, hr⟩ := hq
    exact ⟨r, f.2, hr ▸ ((mem_below distinct).mp hf).2⟩
  constructor
  · intro same p entries hne hp
    have hc := same p
    rw [hp] at hc
    rcases (contentsOf_dir_iff.mp hc).2 with hnil | ⟨f, hf, hpre⟩
    · exact absurd hnil hne
    · exact found hf hpre
  · intro full q
    cases hq : node.find q with
    | none =>
      have nowhere (r : List String) : node.find (q ++ r) = none := by rw [find_append, hq]; rfl
      cases hc : contentsOf (below node) q with
      | none => rfl
      | some kind =>
        exfalso
        cases kind with
        | file content =>
          have hf := ((mem_below distinct).mp ((contentsOf_file_iff compatible).mp hc)).2
          rw [hq] at hf
          cases hf
        | dir =>
          rcases (contentsOf_dir_iff.mp hc).2 with rfl | ⟨f, hf, hpre⟩
          · cases hq
          · obtain ⟨r, content, hr⟩ := found hf hpre
            rw [nowhere r] at hr
            cases hr
    | some at_q =>
      cases at_q with
      | file content =>
        have hne : q ≠ [] := by
          rintro rfl
          cases hq
          cases hdir
        exact contentsOf_file compatible ((mem_below distinct).mpr ⟨hne, hq⟩)
      | dir entries =>
        refine contentsOf_dir_iff.mpr ⟨?_, ?_⟩
        · rintro f hf rfl
          have hfile := ((mem_below distinct).mp hf).2
          rw [hq] at hfile
          cases hfile
        · by_cases hne : q = []
          · exact Or.inl hne
          · obtain ⟨r, content, hr⟩ := full q entries hne hq
            have hne' : q ++ r ≠ [] := by simp [hne]
            exact Or.inr ⟨_, (mem_below distinct).mpr ⟨hne', hr⟩, List.prefix_append q r⟩

end Files

def joinAll (top : String) (p : List String) : String := p.foldl osPathJoin top

section Archive
variable {disk : Disk} {top : String} {place₀ : List String} {node : Tree}

theorem files_eq (top : String) (entries : Forest) :
    files top entries = (direct entries).map (fun f => joinAll top f.1) := by
  induction entries using direct.induct with
  | case1 => rfl
  | case2 name content rest ih => rw [files, direct, List.map_cons, ih]; rfl
  | case3 name entries' rest ih => rw [files, direct, ih]

mutual

theorem walkFiles_eq (top : String) (node : Tree) :
    walkFiles top node = (below node).map (fun f => joinAll top f.1) := by
  match node with
  | .file content => rfl
  | .dir entries => rw [walkFiles, below, List.map_append, files_eq, walkDirs_eq top entries]

theorem walkDirs_eq (top : String) (entries : Forest) :
    walkDirs top entries = (belowDirs entries).map (fun f => joinAll top f.1) := by
  match entries with
  | .nil => rfl
  | .cons name node rest =>
    rw [walkDirs, belowDirs, List.map_append, walkDirs_eq top rest, walkFiles_eq _ node,
      List.map_map]
    rfl

end

/-- A name leads from a directory to its entry. -/
theorem resolve_child {name : Name} (htop : disk.resolve top = some place₀)
    (hchild : disk.root.find (place₀ ++ [name.text]) = some node) :
    disk.resolve (osPathJoin top name.text) = some (place₀ ++ [name.text]) := by
  have hrel := isabs_part name.isPart
  have hsplit := split_part name.isPart
  unfold Disk.resolve at htop
  split at htop
  · cases htop
  · rename_i hok
    simp only [not_or, Bool.not_eq_true] at hok
    obtain ⟨pre, hjoin, hpre⟩ := split_osPathJoin hrel hok.1
    have hwalk : disk.root.walk (start disk.cwd top) pre = some place₀ := by
      rcases hpre with he | he
      · rw [← he]
        exact htop
      · rw [he, walk_append] at htop
        obtain ⟨q, hq, hlast⟩ := Option.bind_eq_some_iff.mp htop
        have hsame := walk_place hlast
        rw [hq, hsame]
        rfl
    have hne := osPathJoin_ne_empty hrel hok.1
    have hnul := hasNul_osPathJoin hok.2 name.noNul
    have hparts : ∀ c ∈ [name.text], IsPart c := by simp [name.isPart]
    rw [Disk.resolve, if_neg (by simp [hne, hnul]), start_osPathJoin hrel hok.1, hjoin, hsplit,
      walk_append, hwalk]
    exact walk_parts hparts hchild

/-- Names lead from a directory to what is found below it. -/
theorem resolve_joinAll {p : List String} (htop : disk.resolve top = some place₀)
    (h : disk.root.find (place₀ ++ p) = some node) :
    disk.resolve (joinAll top p) = some (place₀ ++ p) := by
  induction p generalizing top place₀ with
  | nil => simpa [joinAll] using htop
  | cons c p ih =>
    have hstep : place₀ ++ [c] ++ p = place₀ ++ c :: p := by simp
    obtain ⟨hpart, hnul⟩ := find_parts h c (by simp)
    rw [← hstep, find_append] at h
    obtain ⟨child, hchild, -⟩ := Option.bind_eq_some_iff.mp h
    rw [← find_append] at h
    have hfirst := @resolve_child disk top place₀ child ⟨c, hpart, hnul⟩ htop hchild
    rw [← hstep]
    exact ih hfirst h

theorem place_joinAll {cwd p : List String} (h : Parts p) :
    place cwd (joinAll top p) = place cwd top ++ p := by
  induction p generalizing top with
  | nil => simp [joinAll]
  | cons c p ih =>
    have hc := h c List.mem_cons_self
    have hrest := @ih (osPathJoin top c) (fun d hd => h d (List.mem_cons_of_mem c hd))
    rw [joinAll, List.foldl_cons]
    rw [joinAll] at hrest
    rw [hrest, place_osPathJoin_part hc, List.append_assoc]
    rfl

theorem commonPrefix_self (p q : List String) : commonPrefix p (p ++ q) = p :=
  (commonPrefix_eq_left_iff p (p ++ q)).mpr (List.prefix_append p q)

theorem relpath_joinAll {cwd p : List String} (h : Parts p) (hne : p ≠ []) :
    relpath cwd (joinAll top p) top = join p := by
  simp [relpath, place_joinAll h, commonPrefix_self, hne]

/-- Every file of the walk is written under its place below the workspace. -/
theorem zipWrite_below {srcDir : String} {f : List String × List UInt8}
    (hsrc : disk.resolve srcDir = some place₀) (hnode : disk.root.find place₀ = some node)
    (distinct : node.Distinct) (hf : f ∈ below node) :
    zipWrite disk (joinAll srcDir f.1) (relpath disk.cwd (joinAll srcDir f.1) srcDir) =
      .ok ⟨join f.1, f.2, place₀ ++ f.1⟩ := by
  obtain ⟨hne, hfind⟩ := (mem_below distinct).mp hf
  have hparts : Parts f.1 := fun c hc => (find_parts hfind c hc).1
  have hfile : disk.root.find (place₀ ++ f.1) = some (.file f.2) := by
    rw [find_append, hnode]
    exact hfind
  simp only [zipWrite, Disk.read, resolve_joinAll hsrc hfile, hfile, relpath_joinAll hparts hne]

theorem mapM_eq {α β : Type} {f : α → Except PyError β} {g : α → β} {xs : List α}
    (h : ∀ x ∈ xs, f x = .ok (g x)) : xs.mapM f = .ok (xs.map g) := by
  induction xs with
  | nil => rfl
  | cons x xs ih =>
    rw [List.mapM_cons, h x List.mem_cons_self, ih (fun y hy => h y (List.mem_cons_of_mem x hy))]
    rfl

/-- The archive of a workspace: its files under their relative paths. -/
theorem zipDirectory_eq {srcDir : String} (hsrc : disk.resolve srcDir = some place₀)
    (hnode : disk.root.find place₀ = some node) (distinct : node.Distinct) :
    zipDirectory disk srcDir =
      .ok ((below node).map (fun f => ⟨join f.1, f.2, place₀ ++ f.1⟩)) := by
  have hnul : hasNul srcDir = false := by
    cases hn : hasNul srcDir with
    | false => rfl
    | true => simp [Disk.resolve, hn] at hsrc
  have hwalk : osWalk disk srcDir = .ok ((below node).map (fun f => joinAll srcDir f.1)) := by
    simp [osWalk, hnul, hsrc, hnode, walkFiles_eq]
  simp only [zipDirectory, hwalk, List.mapM_map]
  exact mapM_eq (fun f hf => zipWrite_below hsrc hnode distinct hf)

/-- A workspace is extracted as it was exactly if it has no empty directory. -/
theorem reconstructed_iff (fs : FileSystem) (srcDir : String) (hdir : fs.isdir srcDir = true) :
    ∃ node members c, fs.root.find (place fs.cwd srcDir) = some node ∧
      zipDirectory fs.toDisk srcDir = .ok members ∧
      extractAll fresh (members.map written) = some c ∧ (SameTree c node ↔ NoEmptyDirs node) := by
  unfold Disk.isdir at hdir
  cases hsrc : fs.resolve srcDir with
  | none => simp [hsrc] at hdir
  | some place₀ =>
    simp only [hsrc] at hdir
    cases hnode : fs.root.find place₀ with
    | none => simp [hnode] at hdir
    | some node =>
      simp only [hnode, Option.any_some] at hdir
      have distinct : node.Distinct := find_distinct hnode fs.distinct
      have compatible := below_compatible distinct
      refine ⟨node, _, contentsOf (below node), ?_, zipDirectory_eq hsrc hnode distinct, ?_,
        sameTree_iff distinct hdir⟩
      · rw [← resolve_place hsrc]
        exact hnode
      · have hall := @extractAll_contentsOf [] (below node)
          (((below node).map (fun f => (⟨join f.1, f.2, place₀ ++ f.1⟩ : Member))).map written)
          compatible (fun f hf => ((mem_below distinct).mp hf).1) ?_
        · rw [contentsOf_nil] at hall
          exact hall
        · rw [List.map_map, List.forall₂_map_left_iff, List.forall₂_same]
          intro f hf
          obtain ⟨-, hfind⟩ := (mem_below distinct).mp hf
          exact ⟨memberPlace_join (fun c hc => (find_parts hfind c hc).1), rfl⟩

/-- `/w` holds the file `a` and the empty directory `logs`. -/
def withLogs : FileSystem where
  entries := .cons ⟨"w", by decide, by decide⟩ (.dir
    (.cons ⟨"a", by decide, by decide⟩ (.file [1])
    (.cons ⟨"logs", by decide, by decide⟩ (.dir .nil) .nil))) .nil
  cwd := []
  cwdParts := by simp [Parts]
  cwdIsDir := rfl
  distinct := by simp [Forest.Distinct, Tree.Distinct, Forest.get?]

theorem withLogs_iff :
    ∃ node members c, withLogs.root.find (place withLogs.cwd "/w") = some node ∧
      zipDirectory withLogs.toDisk "/w" = .ok members ∧
      extractAll fresh (members.map written) = some c ∧ (SameTree c node ↔ NoEmptyDirs node) :=
  reconstructed_iff withLogs "/w" rfl

/-- The directory is gone. -/
theorem withLogs_lost :
    ∃ members c, zipDirectory withLogs.toDisk "/w" = .ok members ∧
      extractAll fresh (members.map written) = some c ∧
      ∀ node, withLogs.root.find ["w"] = some node → ¬ SameTree c node := by
  have hzip : zipDirectory withLogs.toDisk "/w" = .ok [⟨"a", [1], ["w", "a"]⟩] := by rfl
  have hlogs : (extractAll fresh ([⟨"a", [1], ["w", "a"]⟩].map written)).map (fun c => c ["logs"]) =
      some none := by decide +kernel
  obtain ⟨c, hc, hnone⟩ := Option.map_eq_some_iff.mp hlogs
  refine ⟨_, c, hzip, hc, ?_⟩
  intro node hnode same
  cases hnode
  have hsame := same ["logs"]
  rw [hnone] at hsame
  cases hsame

end Archive

end WorkspaceReconstruction
