import DelegateProtocol.Lib.LinkedFiles
import DelegateProtocol.WorkspaceReconstruction

/-!
# Fixtures with symbolic links

The two ways to an archive on a disk with links and special files. The file that
is named is opened by its normalised path and checked by its real path: nothing
outside the fixture is read. What it agrees with in the archive of the whole
fixture is what the walk finds there too, which follows links to files only.
-/

namespace LinkedFixtures

open LinkedFiles PosixPath Runtime WorkspaceFixtures WorkspaceReconstruction ZipArchive

/-- `zf.write(path, arcname)`; what is no regular file cannot be read. -/
def zipWrite (disk : LinkedDisk) (path arcname : String) : Except PyError Member :=
  match disk.read path with
  | none => .error .osError
  | some (place, content) => .ok ⟨arcname, content, place⟩

/-- `entry.is_dir()`, which follows a link. -/
def entryIsDir (disk : LinkedDisk) (path : String) : Node → Bool
  | .dir _ => true
  | .link _ => disk.isdir path
  | _ => false

/-- The files of a directory itself. -/
def files (disk : LinkedDisk) (top : String) : Entries → List String
  | .nil => []
  | .cons name node rest =>
    if entryIsDir disk (osPathJoin top name.text) node = true then files disk top rest
    else osPathJoin top name.text :: files disk top rest

mutual

/-- The paths of all files in the order of `os.walk(top)`, which does not go on
behind links. -/
def walkFiles (disk : LinkedDisk) (top : String) : Node → List String
  | .dir entries => files disk top entries ++ walkDirs disk top entries
  | _ => []

def walkDirs (disk : LinkedDisk) (top : String) : Entries → List String
  | .nil => []
  | .cons name node rest =>
    walkFiles disk (osPathJoin top name.text) node ++ walkDirs disk top rest

end

/-- What `os.walk` finds; what is no directory has no entries. -/
def osWalk (disk : LinkedDisk) (top : String) : Except PyError (List String) :=
  if hasNul top then .error .valueError
  else match disk.resolve top with
  | none => .ok []
  | some place =>
    match disk.root.find place with
    | none => .ok []
    | some node => .ok (walkFiles disk top node)

def zipDirectory (disk : LinkedDisk) (srcDir : String) : Except PyError (List Member) :=
  match osWalk disk srcDir with
  | .error e => .error e
  | .ok paths => paths.mapM (fun path => zipWrite disk path (relpath disk.cwd path srcDir))

def zipSingleFile (disk : LinkedDisk) (srcDir fileName : String) :
    Except PyError (Option (List Member)) :=
  let fullPath := normpath (osPathJoin srcDir fileName)
  match disk.realpath srcDir, disk.realpath fullPath with
  | some srcDirReal, some fullPathReal =>
    match commonpath srcDirReal fullPathReal with
    | none => .error .valueError
    | some common =>
      if common ≠ srcDirReal then .ok none
      else if disk.isfile fullPath = false then .ok none
      else match zipWrite disk fullPath fileName with
      | .error e => .error e
      | .ok m => .ok (some [m])
  | _, _ => .error .valueError

section Confined
variable {disk : LinkedDisk} {path srcDir fileName arcname : String} {m : Member}

theorem zipWrite_ok (h : zipWrite disk path arcname = .ok m) :
    m.arcname = arcname ∧ disk.read path = some (m.place, m.content) := by
  unfold zipWrite at h
  cases hr : disk.read path with
  | none => simp [hr] at h
  | some r =>
    simp only [hr] at h
    cases h
    exact ⟨rfl, rfl⟩

theorem noNul_of_isdir (h : disk.isdir srcDir = true) : hasNul srcDir = false := by
  obtain ⟨p, entries, hr, -⟩ := isdir_iff.mp h
  obtain ⟨m, hm⟩ := resolve_lookup hr
  exact (lookup_walk hm).2.1

/-- The file is sent if it is one and its real path is below that of the
fixture; nothing is raised. -/
theorem zipSingleFile_eq (hsrc : hasNul srcDir = false)
    (hfull : hasNul (normpath (osPathJoin srcDir fileName)) = false) :
    zipSingleFile disk srcDir fileName =
      if disk.realplace srcDir <+: disk.realplace (normpath (osPathJoin srcDir fileName)) then
        match disk.read (normpath (osPathJoin srcDir fileName)) with
        | none => .ok none
        | some (place, content) => .ok (some [⟨fileName, content, place⟩])
      else .ok none := by
  have hbelow := commonpath_absolute (realplace_parts disk srcDir)
    (realplace_parts disk (normpath (osPathJoin srcDir fileName)))
  have habs (p : List String) : isabs (absolute p) = true := by simp [isabs, absolute]
  obtain ⟨common, hcommon⟩ : ∃ common, commonpath (absolute (disk.realplace srcDir))
      (absolute (disk.realplace (normpath (osPathJoin srcDir fileName)))) = some common :=
    ⟨_, by rw [commonpath, if_pos (by rw [habs, habs])]⟩
  rw [hcommon, Option.some.injEq] at hbelow
  simp only [zipSingleFile, LinkedDisk.realpath, hsrc, hfull, Bool.false_eq_true, if_false,
    hcommon]
  by_cases h : disk.realplace srcDir <+: disk.realplace (normpath (osPathJoin srcDir fileName))
  · rw [if_pos h, if_neg (not_not.mpr (hbelow.mpr h))]
    cases hr : disk.read (normpath (osPathJoin srcDir fileName)) with
    | none => simp [LinkedDisk.isfile, hr]
    | some r => simp [LinkedDisk.isfile, hr, zipWrite]
  · rw [if_neg h, if_pos (fun he => h (hbelow.mp he))]

/-- A named file is read below the fixture only, and nothing is raised. -/
theorem zipSingleFile_confined (disk : LinkedDisk) (srcDir fileName : String)
    (hdir : disk.isdir srcDir = true) (hname : hasNul fileName = false) :
    ((¬ disk.realplace srcDir <+: disk.realplace (normpath (osPathJoin srcDir fileName)) ∨
        disk.isfile (normpath (osPathJoin srcDir fileName)) = false) →
      zipSingleFile disk srcDir fileName = .ok none) ∧
    (zipSingleFile disk srcDir fileName = .ok none ∨
      ∃ m rest, zipSingleFile disk srcDir fileName = .ok (some [m]) ∧ rest ≠ [] ∧
        disk.realplace (normpath (osPathJoin srcDir fileName)) = disk.realplace srcDir ++ rest ∧
        disk.root.find (disk.realplace srcDir ++ rest) = some (.file m.content)) := by
  have hsrc := noNul_of_isdir hdir
  rw [zipSingleFile_eq hsrc (hasNul_normpath (hasNul_osPathJoin hsrc hname))]
  constructor
  · rintro (houtside | hnofile)
    · rw [if_neg houtside]
    · split
      · cases hr : disk.read (normpath (osPathJoin srcDir fileName)) with
        | none => rfl
        | some r => simp [LinkedDisk.isfile, hr] at hnofile
      · rfl
  · split
    · rename_i hbelow
      obtain ⟨rest, hrest⟩ := hbelow
      cases hr : disk.read (normpath (osPathJoin srcDir fileName)) with
      | none => exact Or.inl rfl
      | some r =>
        right
        obtain ⟨place, content⟩ := r
        have hplace := read_place hr
        have hfile := (read_resolve hr).2
        rw [← hplace, ← hrest] at hfile
        refine ⟨_, rest, rfl, ?_, hrest.symm, hfile⟩
        rintro rfl
        obtain ⟨p, entries, hsrc, hfound⟩ := isdir_iff.mp hdir
        rw [List.append_nil, realplace_resolve hsrc, hfound] at hfile
        cases hfile
    · exact Or.inl rfl

/-- `/ws` holds two files and two links, one of which leads out of it. -/
def linkedDisk : LinkedDisk where
  entries := .cons ⟨"ws", by decide, by decide⟩ (.dir
    (.cons ⟨"a.txt", by decide, by decide⟩ (.file [1])
    (.cons ⟨"sub", by decide, by decide⟩
      (.dir (.cons ⟨"b.txt", by decide, by decide⟩ (.file [2]) .nil))
    (.cons ⟨"alias", by decide, by decide⟩ (.link "sub")
    (.cons ⟨"out", by decide, by decide⟩ (.link "../secret") .nil)))))
    (.cons ⟨"secret", by decide, by decide⟩ (.file [3]) .nil)
  distinct := by simp [Entries.Distinct, LinkedFiles.Node.Distinct, Entries.get?]
  cwd := ["ws"]
  cwdParts := by simp [Parts, IsPart]
  cwdIsDir := rfl

theorem linkedDisk_confined :
    ((¬ linkedDisk.realplace "/ws" <+: linkedDisk.realplace (normpath (osPathJoin "/ws" "alias/b.txt")) ∨
        linkedDisk.isfile (normpath (osPathJoin "/ws" "alias/b.txt")) = false) →
      zipSingleFile linkedDisk "/ws" "alias/b.txt" = .ok none) ∧
    (zipSingleFile linkedDisk "/ws" "alias/b.txt" = .ok none ∨
      ∃ m rest, zipSingleFile linkedDisk "/ws" "alias/b.txt" = .ok (some [m]) ∧ rest ≠ [] ∧
        linkedDisk.realplace (normpath (osPathJoin "/ws" "alias/b.txt")) =
          linkedDisk.realplace "/ws" ++ rest ∧
        linkedDisk.root.find (linkedDisk.realplace "/ws" ++ rest) = some (.file m.content)) :=
  zipSingleFile_confined linkedDisk "/ws" "alias/b.txt" (by decide +kernel) (by decide)

end Confined

section Whole
variable {disk : LinkedDisk} {path top srcDir : String} {p : List String} {m : Member}

theorem mem_files {entries : Entries} (distinct : entries.Distinct) :
    path ∈ files disk top entries ↔ ∃ n leaf, entries.get? n = some leaf ∧
      path = osPathJoin top n ∧ entryIsDir disk path leaf = false := by
  match entries with
  | .nil => simp [files, Entries.get?]
  | .cons name node rest =>
    have hrest := @mem_files rest distinct.2.2
    have hmem : path ∈ files disk top (.cons name node rest) ↔
        (path = osPathJoin top name.text ∧ entryIsDir disk path node = false) ∨
          path ∈ files disk top rest := by
      rw [files]
      split
      · rename_i hisdir
        constructor
        · exact Or.inr
        · rintro (⟨rfl, hno⟩ | h)
          · rw [hisdir] at hno
            cases hno
          · exact h
      · rename_i hisdir
        rw [List.mem_cons]
        constructor
        · rintro (rfl | h)
          · exact Or.inl ⟨rfl, by simpa using hisdir⟩
          · exact Or.inr h
        · rintro (⟨rfl, -⟩ | h)
          · exact Or.inl rfl
          · exact Or.inr h
    rw [hmem, hrest]
    simp only [LinkedFiles.get?_cons_iff distinct]
    constructor
    · rintro (⟨hp, hno⟩ | ⟨n, leaf, hget, hp, hno⟩)
      · exact ⟨name.text, node, Or.inl ⟨rfl, rfl⟩, hp, hno⟩
      · exact ⟨n, leaf, Or.inr hget, hp, hno⟩
    · rintro ⟨n, leaf, ⟨rfl, rfl⟩ | hget, hp, hno⟩
      · exact Or.inl ⟨hp, hno⟩
      · exact Or.inr ⟨n, leaf, hget, hp, hno⟩

mutual

/-- The walk lists what is below and no directory. -/
theorem mem_walkFiles {node : Node} {top : String} (distinct : node.Distinct) :
    path ∈ walkFiles disk top node ↔ ∃ p leaf, p ≠ [] ∧ node.find p = some leaf ∧
      path = joinAll top p ∧ entryIsDir disk path leaf = false := by
  have only {node : Node} (hnode : ∀ c cs, node.find (c :: cs) = none) :
      ¬ ∃ p leaf, p ≠ [] ∧ node.find p = some leaf ∧ path = joinAll top p ∧
        entryIsDir disk path leaf = false := by
    rintro ⟨p, leaf, hne, hfind, -⟩
    obtain ⟨c, cs, rfl⟩ := List.exists_cons_of_ne_nil hne
    rw [hnode] at hfind
    cases hfind
  match node with
  | .file _ => exact iff_of_false (by simp [walkFiles]) (only (fun _ _ => rfl))
  | .link _ => exact iff_of_false (by simp [walkFiles]) (only (fun _ _ => rfl))
  | .special => exact iff_of_false (by simp [walkFiles]) (only (fun _ _ => rfl))
  | .dir entries =>
    rw [walkFiles, List.mem_append, mem_files distinct, mem_walkDirs distinct]
    constructor
    · rintro (⟨n, leaf, hget, hp, hno⟩ | ⟨n, q, next, leaf, hq, hget, hfind, hp, hno⟩)
      · exact ⟨[n], leaf, by simp, by simp [LinkedFiles.Node.find, hget], hp, hno⟩
      · exact ⟨n :: q, leaf, by simp, by simp [LinkedFiles.Node.find, hget, hfind], hp, hno⟩
    · rintro ⟨p, leaf, hne, hfind, hp, hno⟩
      obtain ⟨n, q, rfl⟩ := List.exists_cons_of_ne_nil hne
      rw [LinkedFiles.Node.find] at hfind
      cases hget : entries.get? n with
      | none => simp [hget] at hfind
      | some next =>
        simp only [hget] at hfind
        by_cases hq : q = []
        · subst hq
          cases hfind
          exact Or.inl ⟨n, leaf, hget, hp, hno⟩
        · exact Or.inr ⟨n, q, next, leaf, hq, hget, hfind, hp, hno⟩

theorem mem_walkDirs {entries : Entries} {top : String} (distinct : entries.Distinct) :
    path ∈ walkDirs disk top entries ↔ ∃ n q next leaf, q ≠ [] ∧ entries.get? n = some next ∧
      next.find q = some leaf ∧ path = joinAll top (n :: q) ∧
      entryIsDir disk path leaf = false := by
  match entries with
  | .nil => simp [walkDirs, Entries.get?]
  | .cons name node rest =>
    rw [walkDirs, List.mem_append, mem_walkFiles distinct.2.1, mem_walkDirs distinct.2.2]
    simp only [LinkedFiles.get?_cons_iff distinct]
    constructor
    · rintro (⟨q, leaf, hq, hfind, hp, hno⟩ | ⟨n, q, next, leaf, hq, hget, hfind, hp, hno⟩)
      · exact ⟨name.text, q, node, leaf, hq, Or.inl ⟨rfl, rfl⟩, hfind, hp, hno⟩
      · exact ⟨n, q, next, leaf, hq, Or.inr hget, hfind, hp, hno⟩
    · rintro ⟨n, q, next, leaf, hq, ⟨rfl, rfl⟩ | hget, hfind, hp, hno⟩
      · exact Or.inl ⟨q, leaf, hq, hfind, hp, hno⟩
      · exact Or.inr ⟨n, q, next, leaf, hq, hget, hfind, hp, hno⟩

end

variable {q : List String} {n : Nat}

/-- A relative path goes on from the directory it is joined to. -/
theorem lookup_osPathJoin {b : String} (hb : isabs b = false) (hnul : hasNul b = false)
    (htop : disk.lookup top = some (q, n)) :
    disk.lookup (osPathJoin top b) = disk.root.walk n q (split b) := by
  obtain ⟨hne, hnul', hwalk⟩ := lookup_walk htop
  obtain ⟨pre, hjoin, hpre⟩ := split_osPathJoin hb hne
  have hfirst : disk.root.walk maxLinks (start disk.cwd top) (pre ++ split b) =
      disk.root.walk n q (split b) := by
    rcases hpre with he | he
    · rw [← he, LinkedFiles.walk_append, hwalk]
      rfl
    · rw [he, LinkedFiles.walk_append] at hwalk
      obtain ⟨⟨r, k⟩, hr, hlast⟩ := Option.bind_eq_some_iff.mp hwalk
      have hsame : some (r, k) = some (q, n) := by
        rw [walk_stay (Or.inl rfl)] at hlast
        split at hlast
        · cases hlast
        · simpa using hlast
      cases hsame
      rw [LinkedFiles.walk_append, hr]
      rfl
  have hnonempty := osPathJoin_ne_empty hb hne
  rw [LinkedDisk.lookup, if_neg (by simp [hnonempty, hasNul_osPathJoin hnul' hnul]),
    start_osPathJoin hb hne, hjoin, hfirst]

/-- Names go on from the directory they are joined to. -/
theorem lookup_joinAll (htop : disk.lookup top = some (q, n)) (hne : p ≠ [])
    (hparts : ∀ c ∈ p, IsPart c ∧ hasNul c = false)
    (hdir : (disk.root.find (q ++ p.dropLast)).any Node.isDir = true) :
    disk.lookup (joinAll top p) = disk.root.walk n q p := by
  induction p generalizing top q with
  | nil => exact absurd rfl hne
  | cons c p ih =>
    obtain ⟨hc, hnul⟩ := hparts c List.mem_cons_self
    have hfirst := lookup_osPathJoin (isabs_part hc) hnul htop
    rw [split_part hc] at hfirst
    cases p with
    | nil => exact hfirst
    | cons d p =>
      have hstep : q ++ [c] ++ (d :: p).dropLast = q ++ (c :: d :: p).dropLast := by simp
      rw [← hstep] at hdir
      obtain ⟨entries, hchild⟩ := LinkedFiles.isDir_iff.mp (isDir_above hdir)
      rw [walk_step (part_notDots hc) hchild (by simp)] at hfirst ⊢
      rw [walk_nil] at hfirst
      exact ih hfirst (by simp) (fun e he => hparts e (List.mem_cons_of_mem c he)) hdir

/-- A name that does not lead up comes behind what it is joined to. -/
theorem normComps_osPathJoin {a b : String} (hb : isabs b = false) (hne : a ≠ "")
    (hup : ".." ∉ normComps b) : normComps (osPathJoin a b) = normComps a ++ normComps b := by
  obtain ⟨pre, hjoin, hpre⟩ := split_osPathJoin hb hne
  have hfirst : normComps a = pre.foldl (normStep (isabs a)) [] := by
    rcases hpre with he | he
    · rw [normComps, he]
    · rw [normComps, he, List.foldl_concat]
      simp [normStep]
  rw [normComps, hb] at hup
  rw [normComps, isabs_osPathJoin hb hne, hjoin, List.foldl_append, foldl_normStep_append _ hup,
    ← hfirst]
  simp only [normComps, hb]

theorem start_isDir (disk : LinkedDisk) (path : String) :
    (disk.root.find (start disk.cwd path)).any Node.isDir = true := by
  unfold start
  split
  · rfl
  · exact disk.cwdIsDir

theorem lookup_normpath (hnul : hasNul (normpath path) = false) : disk.lookup (normpath path) =
    disk.root.walk maxLinks (start disk.cwd path) (normComps path) := by
  obtain ⟨pad, hpad, hsplit, habs⟩ := normpath_split path
  have hstart : start disk.cwd (normpath path) = start disk.cwd path := by
    rw [start, habs, start]
  rw [LinkedDisk.lookup, if_neg (by simp [normpath_ne_empty, hnul]), hstart,
    hsplit, walk_idle hpad (start_isDir disk path)]

/-- A directory without steps up in its path is found by the normalised one too. -/
theorem lookup_noUps (hdir : disk.isdir path = true) (hup : ".." ∉ split path) :
    disk.lookup (normpath path) = disk.lookup path := by
  obtain ⟨q, entries, hresolve, -⟩ := isdir_iff.mp hdir
  obtain ⟨n, hn⟩ := resolve_lookup hresolve
  obtain ⟨-, hnul, hwalk⟩ := lookup_walk hn
  rw [lookup_normpath (hasNul_normpath hnul), hn, normComps, foldl_normStep_noUps [] hup,
    List.nil_append]
  exact walk_filter hwalk

/-- The normalised path of a name that does not lead up goes on from the fixture. -/
theorem lookup_named {fileName : String} (hsrc : disk.lookup srcDir = some (q, n))
    (hnormal : disk.lookup (normpath srcDir) = disk.lookup srcDir) (hb : isabs fileName = false)
    (hfull : hasNul (normpath (osPathJoin srcDir fileName)) = false)
    (hup : ".." ∉ normComps fileName) : disk.lookup (normpath (osPathJoin srcDir fileName)) =
      disk.root.walk n q (normComps fileName) := by
  obtain ⟨hne, hnul', -⟩ := lookup_walk hsrc
  have hwalk : disk.root.walk maxLinks (start disk.cwd srcDir) (normComps srcDir) = some (q, n) := by
    rw [← lookup_normpath (hasNul_normpath hnul'), hnormal, hsrc]
  rw [lookup_normpath hfull, start_osPathJoin hb hne,
    normComps_osPathJoin hb hne hup, LinkedFiles.walk_append, hwalk]
  rfl

variable {node : Node} {members : List Member}

/-- The whole archive has a member for everything below the fixture that is no
directory; each is read by the path the walk has come by. -/
theorem mem_zipDirectory (hzip : zipDirectory disk srcDir = .ok members)
    (hsrc : disk.resolve srcDir = some q) (hnode : disk.root.find q = some node) :
    m ∈ members ↔ ∃ p leaf, p ≠ [] ∧ disk.root.find (q ++ p) = some leaf ∧
      entryIsDir disk (joinAll srcDir p) leaf = false ∧ m.arcname = join p ∧
      disk.read (joinAll srcDir p) = some (m.place, m.content) := by
  have hnul : hasNul srcDir = false := by
    obtain ⟨k, hk⟩ := resolve_lookup hsrc
    exact (lookup_walk hk).2.1
  have hwalk : osWalk disk srcDir = .ok (walkFiles disk srcDir node) := by
    simp [osWalk, hnul, hsrc, hnode]
  have distinct : node.Distinct := LinkedFiles.find_distinct hnode disk.distinct
  have hfind (p : List String) : disk.root.find (q ++ p) = node.find p := by
    rw [LinkedFiles.find_append, hnode]
    rfl
  simp only [zipDirectory, hwalk] at hzip
  rw [mapM_ok hzip]
  constructor
  · rintro ⟨path, hpath, hwrite⟩
    obtain ⟨p, leaf, hne, hleaf, rfl, hno⟩ := (mem_walkFiles distinct).mp hpath
    obtain ⟨harc, hread⟩ := zipWrite_ok hwrite
    have hparts : Parts p := fun c hc => (LinkedFiles.find_names hleaf c hc).1
    refine ⟨p, leaf, hne, (hfind p).trans hleaf, hno, ?_, hread⟩
    rw [harc, relpath_joinAll hparts hne]
  · rintro ⟨p, leaf, hne, hleaf, hno, harc, hread⟩
    rw [hfind] at hleaf
    have hparts : Parts p := fun c hc => (LinkedFiles.find_names hleaf c hc).1
    refine ⟨joinAll srcDir p, (mem_walkFiles distinct).mpr ⟨p, leaf, hne, hleaf, rfl, hno⟩, ?_⟩
    rw [relpath_joinAll hparts hne, zipWrite, hread, ← harc]

/-- Where the members of the whole archive are extracted to. -/
def extracted (members : List Member) : List (List String × List UInt8) :=
  members.map (fun m => (memberPlace (writtenName m.arcname), m.content))

theorem mem_extracted {content : List UInt8} (hzip : zipDirectory disk srcDir = .ok members)
    (hsrc : disk.resolve srcDir = some q) (hnode : disk.root.find q = some node) :
    (p, content) ∈ extracted members ↔ ∃ leaf place, p ≠ [] ∧
      disk.root.find (q ++ p) = some leaf ∧ entryIsDir disk (joinAll srcDir p) leaf = false ∧
      disk.read (joinAll srcDir p) = some (place, content) := by
  constructor
  · intro h
    obtain ⟨m, hm, he⟩ := List.mem_map.mp h
    obtain ⟨p', leaf, hne, hleaf, hno, harc, hread⟩ := (mem_zipDirectory hzip hsrc hnode).mp hm
    have hparts : Parts p' := fun c hc =>
      (LinkedFiles.find_names hleaf c (List.mem_append_right q hc)).1
    rw [harc, memberPlace_join hparts] at he
    cases he
    exact ⟨leaf, m.place, hne, hleaf, hno, hread⟩
  · rintro ⟨leaf, place, hne, hleaf, hno, hread⟩
    have hparts : Parts p := fun c hc =>
      (LinkedFiles.find_names hleaf c (List.mem_append_right q hc)).1
    refine List.mem_map.mpr ⟨⟨join p, content, place⟩, ?_, by rw [memberPlace_join hparts]⟩
    exact (mem_zipDirectory hzip hsrc hnode).mpr ⟨p, leaf, hne, hleaf, hno, rfl, hread⟩

/-- The whole archive can be extracted; every member is where it was. -/
theorem whole_extracted (hzip : zipDirectory disk srcDir = .ok members)
    (hsrc : disk.resolve srcDir = some q) (hnode : disk.root.find q = some node) :
    extractAll fresh (members.map written) = some (contentsOf (extracted members)) ∧
      Compatible (extracted members) := by
  have compatible : Compatible (extracted members) := by
    rintro ⟨p, content⟩ hf ⟨p', content'⟩ hg ⟨rest, hrest⟩
    simp only at hrest
    obtain ⟨leaf, place, hne, hleaf, hno, hread⟩ := (mem_extracted hzip hsrc hnode).mp hf
    obtain ⟨leaf', place', -, hleaf', -, hread'⟩ := (mem_extracted hzip hsrc hnode).mp hg
    cases rest with
    | nil =>
      rw [List.append_nil] at hrest
      subst hrest
      rw [hread] at hread'
      cases hread'
      rfl
    | cons c rest =>
      exfalso
      rw [← hrest, ← List.append_assoc] at hleaf'
      have hdir := LinkedFiles.find_above hleaf'
      rw [hleaf] at hdir
      cases leaf with
      | dir _ => cases hno
      | file _ => cases hdir
      | link _ => cases hdir
      | special => cases hdir
  refine ⟨?_, compatible⟩
  rw [← contentsOf_nil]
  refine @extractAll_contentsOf [] (extracted members) (members.map written) compatible ?_ ?_
  · rintro ⟨p, content⟩ hf
    obtain ⟨leaf, place, hne, -⟩ := (mem_extracted hzip hsrc hnode).mp hf
    exact hne
  · rw [extracted, List.forall₂_map_left_iff, List.forall₂_map_right_iff, List.forall₂_same]
    intro m _
    simp only [written, and_self]

end Whole

section Agreement
variable {disk : LinkedDisk} {srcDir fileName : String} {q : List String} {n : Nat}
variable {entries : Entries} {members found : List Member}

/-- What a named file that is sent has been. -/
theorem zipSingleFile_ok (hsrc : hasNul srcDir = false)
    (h : zipSingleFile disk srcDir fileName = .ok (some found)) :
    hasNul (normpath (osPathJoin srcDir fileName)) = false ∧ ∃ place content,
      disk.read (normpath (osPathJoin srcDir fileName)) = some (place, content) ∧
      found = [⟨fileName, content, place⟩] := by
  cases hfull : hasNul (normpath (osPathJoin srcDir fileName)) with
  | true => simp [zipSingleFile, LinkedDisk.realpath, hsrc, hfull] at h
  | false =>
    refine ⟨rfl, ?_⟩
    rw [zipSingleFile_eq hsrc hfull] at h
    split at h
    · cases hr : disk.read (normpath (osPathJoin srcDir fileName)) with
      | none => simp [hr] at h
      | some r =>
        simp only [hr] at h
        cases h
        exact ⟨r.1, r.2, rfl, rfl⟩
    · cases h

/-- A file the kernel finds at the names, behind directories only, is listed there. -/
theorem listed_of_read {place names : List String} {content : List UInt8} {path : String}
    (hparts : Parts names) (hne : names ≠ [])
    (hdirs : (disk.root.find (q ++ names.dropLast)).any Node.isDir = true)
    (hlookup : disk.lookup path = disk.root.walk n q names)
    (hread : disk.read path = some (place, content)) :
    ∃ leaf, disk.root.find (q ++ names) = some leaf ∧ entryIsDir disk path leaf = false := by
  obtain ⟨hresolve, hfile⟩ := read_resolve hread
  obtain ⟨k, hk⟩ := resolve_lookup hresolve
  obtain ⟨ds, c, rfl⟩ : ∃ ds c, names = ds ++ [c] :=
    ⟨_, _, (List.dropLast_append_getLast hne).symm⟩
  rw [List.dropLast_concat] at hdirs
  have hc : IsPart c := hparts c (by simp)
  have hds : Parts ds := fun d hd => hparts d (by simp [hd])
  rw [hlookup] at hk
  have hentry := hk
  rw [walk_dirs hds hdirs] at hentry
  obtain ⟨leaf, hleaf⟩ := walk_entry hc hentry
  rw [List.append_assoc] at hleaf
  refine ⟨leaf, hleaf, ?_⟩
  cases leaf with
  | dir below =>
    -- the names would lead to the directory itself
    exfalso
    have hend := @walk_dirs disk.root q [] (ds ++ [c]) n hparts (by rw [hleaf]; rfl)
    rw [List.append_nil, hk, walk_nil] at hend
    cases hend
    rw [hleaf] at hfile
    cases hfile
  | link target =>
    cases hisdir : disk.isdir path with
    | false => exact hisdir
    | true =>
      obtain ⟨p, below, hp, hdir⟩ := isdir_iff.mp hisdir
      rw [hresolve] at hp
      cases hp
      rw [hfile] at hdir
      cases hdir
  | file _ => rfl
  | special => rfl

/-- A named file is extracted at its names, alone. -/
theorem named_extracted (hsrc : disk.lookup srcDir = some (q, n))
    (hnode : disk.root.find q = some (.dir entries))
    (hnormal : disk.lookup (normpath srcDir) = disk.lookup srcDir)
    (h : zipSingleFile disk srcDir fileName = .ok (some found)) (hrel : isabs fileName = false)
    (hup : ".." ∉ normComps fileName) :
    hasNul (normpath (osPathJoin srcDir fileName)) = false ∧ ∃ place content,
      disk.read (normpath (osPathJoin srcDir fileName)) = some (place, content) ∧
      normComps fileName ≠ [] ∧
      extractAll fresh (found.map written) = some (contentsOf [(normComps fileName, content)]) := by
  obtain ⟨hfull, place, content, hread, rfl⟩ := zipSingleFile_ok (lookup_walk hsrc).2.1 h
  have hlookup := lookup_named hsrc hnormal hrel hfull hup
  have hnames : normComps fileName ≠ [] := by
    intro hnil
    obtain ⟨hr, hfile⟩ := read_resolve hread
    rw [LinkedDisk.resolve, hlookup, hnil, walk_nil] at hr
    cases hr
    rw [hnode] at hfile
    cases hfile
  refine ⟨hfull, place, content, hread, hnames, ?_⟩
  rw [← contentsOf_nil]
  refine @extractAll_contentsOf [] [(normComps fileName, content)] _ ?_ ?_ ?_
  · simp [Compatible]
  · simpa using hnames
  · simp only [List.map_cons, List.map_nil, List.forall₂_cons, List.Forall₂.nil, and_true, written,
      memberPlace_writtenName]
    exact filter_ups ((normComps_normal fileName).parts hup)

/-- Behind directories only, the whole archive has the named file too. -/
theorem named_listed {place : List String} {content : List UInt8}
    (hsrc : disk.lookup srcDir = some (q, n)) (hnode : disk.root.find q = some (.dir entries))
    (hnormal : disk.lookup (normpath srcDir) = disk.lookup srcDir) (hrel : isabs fileName = false)
    (hup : ".." ∉ normComps fileName)
    (hfull : hasNul (normpath (osPathJoin srcDir fileName)) = false)
    (hread : disk.read (normpath (osPathJoin srcDir fileName)) = some (place, content))
    (hnames : normComps fileName ≠ [])
    (hdirs : (disk.root.find (q ++ (normComps fileName).dropLast)).any Node.isDir = true)
    (hzip : zipDirectory disk srcDir = .ok members) :
    (normComps fileName, content) ∈ extracted members := by
  have hne := (lookup_walk hsrc).1
  have hresolve : disk.resolve srcDir = some q := by rw [LinkedDisk.resolve, hsrc]; rfl
  have hlookup := lookup_named hsrc hnormal hrel hfull hup
  have hparts : Parts (normComps fileName) := (normComps_normal fileName).parts hup
  have hparts' : ∀ c ∈ normComps fileName, IsPart c ∧ hasNul c = false := by
    intro c hc
    refine ⟨hparts c hc, ?_⟩
    obtain ⟨pad, -, hsplit, -⟩ := normpath_split (osPathJoin srcDir fileName)
    apply hasNul_split hfull
    rw [hsplit, normComps_osPathJoin hrel hne hup]
    simp [hc]
  have hjoined : disk.lookup (joinAll srcDir (normComps fileName)) =
      disk.root.walk n q (normComps fileName) := lookup_joinAll hsrc hnames hparts' hdirs
  have hreadAll : disk.read (joinAll srcDir (normComps fileName)) = some (place, content) := by
    rw [← hread]
    exact read_congr (hjoined.trans hlookup.symm)
  obtain ⟨leaf, hleaf, hno⟩ := listed_of_read hparts hnames hdirs hjoined hreadAll
  exact (mem_extracted hzip hresolve hnode).mpr ⟨leaf, place, hnames, hleaf, hno, hreadAll⟩

theorem relpath_named (hne : srcDir ≠ "") (hrel : isabs fileName = false)
    (hup : ".." ∉ normComps fileName) (hnames : normComps fileName ≠ []) :
    relpath disk.cwd (normpath (osPathJoin srcDir fileName)) srcDir =
      join (normComps fileName) := by
  have hplace : place disk.cwd (normpath (osPathJoin srcDir fileName)) =
      place disk.cwd srcDir ++ normComps fileName := by
    rw [place_normpath, ← normComps_place, start_osPathJoin hrel hne,
      normComps_osPathJoin hrel hne hup, List.foldl_append, normComps_place]
    exact foldl_follow_parts ((normComps_normal fileName).parts hup) _
  simp [relpath, hplace, commonPrefix_self, hnames]

/-- A member of the whole archive whose file lies below the fixture can be asked for. -/
theorem member_requested {m : Member} (hsrc : disk.lookup srcDir = some (q, n))
    (hnode : disk.root.find q = some (.dir entries))
    (hnormal : disk.lookup (normpath srcDir) = disk.lookup srcDir)
    (hzip : zipDirectory disk srcDir = .ok members) (hm : m ∈ members) (hbelow : q <+: m.place) :
    zipSingleFile disk srcDir m.arcname = .ok (some [m]) := by
  obtain ⟨hne, hnul, -⟩ := lookup_walk hsrc
  have hresolve : disk.resolve srcDir = some q := by rw [LinkedDisk.resolve, hsrc]; rfl
  obtain ⟨p, leaf, hp, hleaf, hno, harc, hread⟩ := (mem_zipDirectory hzip hresolve hnode).mp hm
  have hnames : ∀ c ∈ p, IsPart c ∧ hasNul c = false :=
    fun c hc => LinkedFiles.find_names hleaf c (List.mem_append_right q hc)
  have hparts : Parts p := fun c hc => (hnames c hc).1
  have hcomps : normComps m.arcname = p := by rw [harc, normComps_join hparts]
  have hrel : isabs m.arcname = false := by
    rw [harc]
    exact isabs_join hparts.normal
  have hfull : hasNul (normpath (osPathJoin srcDir m.arcname)) = false := by
    apply hasNul_normpath
    apply hasNul_osPathJoin hnul
    rw [harc]
    exact hasNul_join (fun c hc => (hnames c hc).2)
  have hup : ".." ∉ normComps m.arcname := by
    rw [hcomps]
    exact fun h => (hparts _ h).2.2.1 rfl
  have hdirs : (disk.root.find (q ++ p.dropLast)).any Node.isDir = true := by
    rw [← List.dropLast_append_getLast hp, ← List.append_assoc] at hleaf
    exact LinkedFiles.find_above hleaf
  have hlookup := lookup_named hsrc hnormal hrel hfull hup
  rw [hcomps, ← lookup_joinAll hsrc hp hnames hdirs] at hlookup
  have hsame := read_congr hlookup
  rw [hread] at hsame
  rw [zipSingleFile_eq hnul hfull, realplace_resolve hresolve, read_place hsame, if_pos hbelow,
    hsame]

/-- What is sent for a name that neither starts at the root nor leads up is the
file at that path, and the one the whole archive has there unless a directory on
the way is a link; of the whole archive, everything that lies below the fixture
can be asked for. The fixture is to be found by its normalised path as by the
other. -/
theorem zipSingleFile_agrees (disk : LinkedDisk) (srcDir : String)
    (hdir : disk.isdir srcDir = true)
    (hnormal : disk.lookup (normpath srcDir) = disk.lookup srcDir) :
    (∀ fileName found, zipSingleFile disk srcDir fileName = .ok (some found) →
      isabs fileName = false → ".." ∉ normComps fileName →
      ∃ names content c, Parts names ∧
        relpath disk.cwd (normpath (osPathJoin srcDir fileName)) srcDir = join names ∧
        extractAll fresh (found.map written) = some c ∧
        (∀ p d, c p = some (.file d) ↔ p = names ∧ d = content) ∧
        ∀ members whole, zipDirectory disk srcDir = .ok members →
          extractAll fresh (members.map written) = some whole →
          (disk.root.find (disk.realplace srcDir ++ names.dropLast)).any Node.isDir = true →
          whole names = some (.file content)) ∧
    ∀ members, zipDirectory disk srcDir = .ok members →
      (∃ whole, extractAll fresh (members.map written) = some whole) ∧
      ∀ m ∈ members, disk.realplace srcDir <+: m.place →
        zipSingleFile disk srcDir m.arcname = .ok (some [m]) := by
  obtain ⟨q, entries, hresolve, hnode⟩ := isdir_iff.mp hdir
  obtain ⟨n, hsrc⟩ := resolve_lookup hresolve
  rw [realplace_resolve hresolve]
  constructor
  · intro fileName found h hrel hup
    obtain ⟨hfull, place, content, hread, hnames, hextract⟩ :=
      named_extracted hsrc hnode hnormal h hrel hup
    have alone : Compatible [(normComps fileName, content)] := by simp [Compatible]
    refine ⟨normComps fileName, content, _, (normComps_normal fileName).parts hup,
      relpath_named (lookup_walk hsrc).1 hrel hup hnames, hextract, ?_, ?_⟩
    · intro p d
      rw [contentsOf_file_iff alone, List.mem_singleton, Prod.mk.injEq]
    · intro members whole hzip hwhole hdirs
      obtain ⟨hall, compatible⟩ := whole_extracted hzip hresolve hnode
      rw [hall] at hwhole
      cases hwhole
      exact (contentsOf_file_iff compatible).mpr
        (named_listed hsrc hnode hnormal hrel hup hfull hread hnames hdirs hzip)
  · intro members hzip
    exact ⟨⟨_, (whole_extracted hzip hresolve hnode).1⟩,
      fun m hm hbelow => member_requested hsrc hnode hnormal hzip hm hbelow⟩

theorem linkedDisk_agrees :
    (∀ fileName found, zipSingleFile linkedDisk "/ws" fileName = .ok (some found) →
      isabs fileName = false → ".." ∉ normComps fileName →
      ∃ names content c, Parts names ∧
        relpath linkedDisk.cwd (normpath (osPathJoin "/ws" fileName)) "/ws" = join names ∧
        extractAll fresh (found.map written) = some c ∧
        (∀ p d, c p = some (.file d) ↔ p = names ∧ d = content) ∧
        ∀ members whole, zipDirectory linkedDisk "/ws" = .ok members →
          extractAll fresh (members.map written) = some whole →
          (linkedDisk.root.find (linkedDisk.realplace "/ws" ++ names.dropLast)).any Node.isDir =
            true →
          whole names = some (.file content)) ∧
    ∀ members, zipDirectory linkedDisk "/ws" = .ok members →
      (∃ whole, extractAll fresh (members.map written) = some whole) ∧
      ∀ m ∈ members, linkedDisk.realplace "/ws" <+: m.place →
        zipSingleFile linkedDisk "/ws" m.arcname = .ok (some [m]) :=
  zipSingleFile_agrees linkedDisk "/ws" (by decide +kernel)
    (lookup_noUps (by decide +kernel) (by decide +kernel))

/-- `/ws` holds a file and a link to nothing. -/
def danglingDisk : LinkedDisk where
  entries := .cons ⟨"ws", by decide, by decide⟩ (.dir
    (.cons ⟨"a.txt", by decide, by decide⟩ (.file [1])
    (.cons ⟨"gone", by decide, by decide⟩ (.link "nowhere") .nil))) .nil
  distinct := by simp [Entries.Distinct, LinkedFiles.Node.Distinct, Entries.get?]
  cwd := ["ws"]
  cwdParts := by simp [Parts, IsPart]
  cwdIsDir := rfl

/-- `/hop` leads into `/far`, which has a directory of the name `ws` too, and
`/ws` leads below that. -/
def turnedDisk : LinkedDisk where
  entries := .cons ⟨"ws", by decide, by decide⟩ (.link "far/ws/sub")
    (.cons ⟨"hop", by decide, by decide⟩ (.link "far/end")
    (.cons ⟨"far", by decide, by decide⟩ (.dir
      (.cons ⟨"end", by decide, by decide⟩ (.dir .nil)
      (.cons ⟨"ws", by decide, by decide⟩ (.dir
        (.cons ⟨"b.txt", by decide, by decide⟩ (.file [2])
        (.cons ⟨"sub", by decide, by decide⟩
          (.dir (.cons ⟨"b.txt", by decide, by decide⟩ (.file [1]) .nil)) .nil))) .nil))) .nil))
  distinct := by simp [Entries.Distinct, LinkedFiles.Node.Distinct, Entries.get?]
  cwd := ["far"]
  cwdParts := by simp [Parts, IsPart]
  cwdIsDir := rfl

def linkedMembers : List Member :=
  [⟨"a.txt", [1], ["ws", "a.txt"]⟩, ⟨"out", [3], ["secret"]⟩,
    ⟨"sub/b.txt", [2], ["ws", "sub", "b.txt"]⟩]

theorem zipDirectory_linkedDisk : zipDirectory linkedDisk "/ws" = .ok linkedMembers := by
  decide +kernel

/-- A name that leads up and back is extracted elsewhere; a file behind a linked
directory is not in the whole archive; a link out of the fixture is only there; a
link to nothing stops the whole archive; and a fixture can lead elsewhere when it
is normalised. -/
theorem linked_disagrees :
    (∃ m, zipSingleFile linkedDisk "/ws" "../ws/a.txt" = .ok (some [m]) ∧
      relpath linkedDisk.cwd (normpath (osPathJoin "/ws" "../ws/a.txt")) "/ws" = "a.txt" ∧
      (extractAll fresh [written m]).map (fun c => (c ["a.txt"], c ["ws", "a.txt"])) =
        some (none, some (.file [1]))) ∧
    (∃ m members, zipSingleFile linkedDisk "/ws" "alias/b.txt" = .ok (some [m]) ∧
      (extractAll fresh [written m]).map (fun c => c ["alias", "b.txt"]) = some (some (.file [2])) ∧
      zipDirectory linkedDisk "/ws" = .ok members ∧
      (extractAll fresh (members.map written)).map (fun c => c ["alias", "b.txt"]) = some none) ∧
    (∃ m members, zipDirectory linkedDisk "/ws" = .ok members ∧ m ∈ members ∧
      zipSingleFile linkedDisk "/ws" m.arcname = .ok none) ∧
    (zipDirectory danglingDisk "/ws" = .error .osError ∧
      ∃ m, zipSingleFile danglingDisk "/ws" "a.txt" = .ok (some [m])) ∧
    ∃ m m' rest, zipDirectory turnedDisk "/hop/../ws" = .ok (m :: rest) ∧
      zipSingleFile turnedDisk "/hop/../ws" m.arcname = .ok (some [m']) ∧
      m.content ≠ m'.content := by
  refine ⟨⟨⟨"../ws/a.txt", [1], ["ws", "a.txt"]⟩, ?_, ?_, ?_⟩,
    ⟨⟨"alias/b.txt", [2], ["ws", "sub", "b.txt"]⟩, linkedMembers, ?_, ?_,
      zipDirectory_linkedDisk, ?_⟩,
    ⟨⟨"out", [3], ["secret"]⟩, linkedMembers, zipDirectory_linkedDisk, ?_, ?_⟩,
    ⟨?_, ⟨"a.txt", [1], ["ws", "a.txt"]⟩, ?_⟩,
    ⟨"b.txt", [2], ["far", "ws", "b.txt"]⟩, ⟨"b.txt", [1], ["far", "ws", "sub", "b.txt"]⟩,
      [⟨"sub/b.txt", [1], ["far", "ws", "sub", "b.txt"]⟩], ?_, ?_, ?_⟩
  all_goals decide +kernel

end Agreement

mutual

def plain : Tree → Node
  | .file content => .file content
  | .dir entries => .dir (plainEntries entries)

def plainEntries : Forest → Entries
  | .nil => .nil
  | .cons name node rest => .cons name (plain node) (plainEntries rest)

end

section Plain
variable {root : Tree} {p cs : List String} {n : Nat}

theorem get?_plain (entries : Forest) (c : String) :
    (plainEntries entries).get? c = (entries.get? c).map plain := by
  induction entries, c using Forest.get?.induct with
  | case1 c => rfl
  | case2 name node rest => simp [plainEntries, Entries.get?, Forest.get?]
  | case3 c name node rest hname ih => simp [plainEntries, Entries.get?, Forest.get?, hname, ih]

theorem find_plain : (plain root).find p = (root.find p).map plain := by
  induction p generalizing root with
  | nil => cases root <;> rfl
  | cons c p ih =>
    cases root with
    | file content => rfl
    | dir entries =>
      rw [plain, LinkedFiles.Node.find, Tree.find, get?_plain]
      cases entries.get? c with
      | none => rfl
      | some node => exact ih

mutual

theorem plain_distinct {node : Tree} (h : node.Distinct) : (plain node).Distinct := by
  match node with
  | .file _ => trivial
  | .dir entries => exact plainEntries_distinct h

theorem plainEntries_distinct {entries : Forest} (h : entries.Distinct) :
    (plainEntries entries).Distinct := by
  match entries with
  | .nil => trivial
  | .cons name node rest =>
    refine ⟨?_, plain_distinct h.2.1, plainEntries_distinct h.2.2⟩
    rw [get?_plain, h.1]
    rfl

end

theorem isDir_plain (found : Option Tree) :
    (found.map plain).any Node.isDir = found.any Tree.isDir := by
  cases found with
  | none => rfl
  | some node => cases node <;> rfl

theorem not_link (node : Tree) (target : String) : plain node ≠ .link target := by
  cases node <;> simp [plain]

/-- The same file system, on which there are no links to follow. -/
def plainDisk (fs : FileSystem) : LinkedDisk where
  entries := plainEntries fs.entries
  distinct := plainEntries_distinct fs.distinct
  cwd := fs.cwd
  cwdParts := fs.cwdParts
  cwdIsDir := by
    have hfind := @find_plain (.dir fs.entries) fs.cwd
    rw [plain] at hfind
    rw [hfind, isDir_plain]
    exact fs.cwdIsDir

theorem walk_plain : (plain root).walk n p cs = (root.walk p cs).map (fun q => (q, n)) := by
  induction cs generalizing p with
  | nil => simp [Tree.walk]
  | cons c cs ih =>
    have hstep : (plain root).walk n p (c :: cs) =
        if (root.find p).any Tree.isDir = true ∧ (root.find (follow p c)).isSome = true then
          (plain root).walk n (follow p c) cs
        else none := by
      have hdirs := @isDir_plain (root.find p)
      rw [← find_plain] at hdirs
      cases hp : (root.find p).any Tree.isDir with
      | false => rw [walk_notDir (hdirs.trans hp), if_neg (by simp)]
      | true =>
        have there {q : List String} (h : (root.find q).any Tree.isDir = true) :
            (root.find q).isSome = true := by
          cases hq : root.find q <;> simp [hq] at h ⊢
        rw [hp] at hdirs
        by_cases hdot : c = "" ∨ c = "."
        · have hfollow : follow p c = p := by simp [follow, hdot]
          rw [walk_stay hdot, if_neg (by simp [hdirs]), hfollow, if_pos ⟨rfl, there hp⟩]
        · by_cases hup : c = ".."
          · subst hup
            rw [walk_up hdirs, follow_up, if_pos ⟨rfl, there (find_dropLast hp)⟩]
          · have hfollow : follow p c = p ++ [c] := by simp [follow, hdot, hup]
            rw [hfollow]
            cases hf : root.find (p ++ [c]) with
            | none =>
              rw [walk_missing (not_dots hdot hup) (by rw [find_plain, hf]; rfl), if_neg (by simp)]
            | some node =>
              have hfind : (plain root).find (p ++ [c]) = some (plain node) := by
                rw [find_plain, hf]
                rfl
              rw [walk_step (not_dots hdot hup) hfind (not_link node), if_pos ⟨rfl, rfl⟩]
    rw [hstep, ih, Tree.walk]
    split <;> rfl

variable {fs : FileSystem} {path : String}

theorem find_plainDisk : (plainDisk fs).root.find p = (fs.root.find p).map plain :=
  @find_plain (.dir fs.entries) p

theorem resolve_plain : (plainDisk fs).resolve path = fs.resolve path := by
  rw [LinkedDisk.resolve, LinkedDisk.lookup, Disk.resolve]
  split
  · rfl
  · have hwalk := @walk_plain (.dir fs.entries) (start fs.cwd path) (split path) maxLinks
    rw [plain] at hwalk
    rw [LinkedDisk.root, Disk.root]
    simp only [plainDisk, hwalk, Option.map_map, Function.comp_def, Option.map_id']

theorem read_plain : (plainDisk fs).read path = fs.read path := by
  rw [LinkedDisk.read, Disk.read, resolve_plain]
  cases hr : fs.resolve path with
  | none => rfl
  | some q =>
    simp only [find_plainDisk]
    cases fs.root.find q with
    | none => rfl
    | some node => cases node <;> rfl

/-- Without links `realpath` goes through the names. -/
theorem real_plain (seen : Seen) : (plain root).real (n + 1) seen p cs =
    ⟨cs.foldl follow p, true, seen⟩ := by
  rw [LinkedFiles.Node.real]
  induction cs generalizing p with
  | nil => rfl
  | cons c cs ih =>
    rw [LinkedFiles.Node.realWith, List.foldl_cons]
    split
    · rename_i hdot
      rw [ih]
      simp [follow, hdot]
    · rename_i hdot
      split
      · rename_i hup
        rw [ih, hup, follow_up]
      · rename_i hup
        split
        · rename_i target hfind
          exfalso
          rw [find_plain] at hfind
          obtain ⟨node, -, hnode⟩ := Option.map_eq_some_iff.mp hfind
          exact not_link node target hnode
        · rw [ih]
          simp [follow, hdot, hup]

theorem realpath_plain : (plainDisk fs).realpath path = realpath fs.cwd path := by
  have hreal := @real_plain (.dir fs.entries) (start fs.cwd path) (split path)
    (plainDisk fs).root.links.length []
  have hplace : (plainDisk fs).realplace path = place fs.cwd path :=
    congrArg Real.place hreal
  rw [LinkedDisk.realpath, hplace, realpath]

theorem zipWrite_plain (path arcname : String) :
    zipWrite (plainDisk fs) path arcname = WorkspaceFixtures.zipWrite fs.toDisk path arcname := by
  cases hr : fs.read path with
  | none => simp only [zipWrite, WorkspaceFixtures.zipWrite, read_plain, hr]
  | some r => simp only [zipWrite, WorkspaceFixtures.zipWrite, read_plain, hr]

theorem files_plain (top : String) (entries : Forest) :
    files (plainDisk fs) top (plainEntries entries) = WorkspaceFixtures.files top entries := by
  match entries with
  | .nil => rfl
  | .cons name (.file content) rest =>
    rw [plainEntries, plain, files, WorkspaceFixtures.files, files_plain top rest]
    rfl
  | .cons name (.dir entries) rest =>
    rw [plainEntries, plain, files, WorkspaceFixtures.files, files_plain top rest]
    rfl

mutual

theorem walkFiles_plain (top : String) (node : Tree) :
    walkFiles (plainDisk fs) top (plain node) = WorkspaceFixtures.walkFiles top node := by
  match node with
  | .file content => rfl
  | .dir entries =>
    rw [plain, walkFiles, WorkspaceFixtures.walkFiles, files_plain, walkDirs_plain top entries]

theorem walkDirs_plain (top : String) (entries : Forest) :
    walkDirs (plainDisk fs) top (plainEntries entries) = WorkspaceFixtures.walkDirs top entries := by
  match entries with
  | .nil => rfl
  | .cons name node rest =>
    rw [plainEntries, walkDirs, WorkspaceFixtures.walkDirs, walkFiles_plain _ node,
      walkDirs_plain top rest]

end

/-- Without links the whole archive is the one it was. -/
theorem zipDirectory_plain (srcDir : String) :
    zipDirectory (plainDisk fs) srcDir = WorkspaceFixtures.zipDirectory fs.toDisk srcDir := by
  have hwalk : osWalk (plainDisk fs) srcDir = WorkspaceFixtures.osWalk fs.toDisk srcDir := by
    rw [osWalk, WorkspaceFixtures.osWalk, resolve_plain]
    split
    · rfl
    · cases hr : fs.resolve srcDir with
      | none => rfl
      | some q =>
        simp only [find_plainDisk]
        cases fs.root.find q with
        | none => rfl
        | some node => simp only [Option.map_some, walkFiles_plain]
  have hcwd : (plainDisk fs).cwd = fs.cwd := rfl
  cases hw : WorkspaceFixtures.osWalk fs.toDisk srcDir with
  | error e => simp only [zipDirectory, WorkspaceFixtures.zipDirectory, hwalk, hw]
  | ok paths =>
    simp only [zipDirectory, WorkspaceFixtures.zipDirectory, hwalk, hw, zipWrite_plain, hcwd]

/-- Without links a named file is sent as it was. -/
theorem zipSingleFile_plain (srcDir fileName : String) :
    zipSingleFile (plainDisk fs) srcDir fileName =
      WorkspaceFixtures.zipSingleFile fs.toDisk srcDir fileName := by
  have hisfile (path : String) : (plainDisk fs).isfile path = fs.isfile path := by
    rw [LinkedDisk.isfile, Disk.isfile, read_plain]
  cases hsrc : realpath fs.cwd srcDir with
  | none => simp only [zipSingleFile, WorkspaceFixtures.zipSingleFile, realpath_plain, hsrc]
  | some srcDirReal =>
    cases hfull : realpath fs.cwd (normpath (osPathJoin srcDir fileName)) with
    | none =>
      simp only [zipSingleFile, WorkspaceFixtures.zipSingleFile, realpath_plain, hsrc, hfull]
    | some fullPathReal =>
      cases hcommon : commonpath srcDirReal fullPathReal with
      | none =>
        simp only [zipSingleFile, WorkspaceFixtures.zipSingleFile, realpath_plain, hsrc, hfull,
          hcommon]
      | some common =>
        cases hwrite : WorkspaceFixtures.zipWrite fs.toDisk
            (normpath (osPathJoin srcDir fileName)) fileName with
        | error e =>
          simp only [zipSingleFile, WorkspaceFixtures.zipSingleFile, realpath_plain, hsrc, hfull,
            hcommon, hisfile, zipWrite_plain, hwrite]
        | ok m =>
          simp only [zipSingleFile, WorkspaceFixtures.zipSingleFile, realpath_plain, hsrc, hfull,
            hcommon, hisfile, zipWrite_plain, hwrite]

end Plain

end LinkedFixtures
