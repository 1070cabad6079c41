import DelegateProtocol.Views
import DelegateProtocol.Lib.PosixPath

/-!
# The files of a workspace

Two texts from outside lead to the files that are sent: the fixture of an
execution and the file of a request. The first is joined to the directory of the
fixtures and only has to be a directory; the second is checked against the first.
-/

namespace WorkspaceFixtures

open Handlers Models PosixPath Runtime Uuid Views

/-- A file in an archive, and the place it was read from. -/
structure Member where
  arcname : String
  content : List UInt8
  place : List String
  deriving DecidableEq

def Member.entry (m : Member) : String × List UInt8 := (m.arcname, m.content)

/-- `zf.write(path, arcname)`. -/
def zipWrite (disk : Disk) (path arcname : String) : Except PyError Member :=
  match disk.read path with
  | none => .error .osError
  | some (place, content) => .ok ⟨arcname, content, place⟩

/-- The files of a directory itself. -/
def files (top : String) : Forest → List String
  | .nil => []
  | .cons name (.file _) rest => osPathJoin top name.text :: files top rest
  | .cons _ (.dir _) rest => files top rest

mutual

/-- The paths of all files in the order of `os.walk(top)`. -/
def walkFiles (top : String) : Tree → List String
  | .file _ => []
  | .dir entries => files top entries ++ walkDirs top entries

def walkDirs (top : String) : Forest → List String
  | .nil => []
  | .cons name node rest => walkFiles (osPathJoin top name.text) node ++ walkDirs top rest

end

/-- What `os.walk` finds; what is no directory has no entries. -/
def osWalk (disk : Disk) (top : String) : Except PyError (List String) :=
  if hasNul top then .error .valueError
  else match disk.resolve top with
  | none => .ok []
  | some place =>
    match disk.root.find place with
    | none => .ok []
    | some node => .ok (walkFiles top node)

def zipDirectory (disk : Disk) (srcDir : String) : Except PyError (List Member) :=
  match osWalk disk srcDir with
  | .error e => .error e
  | .ok paths => paths.mapM (fun path => zipWrite disk path (relpath disk.cwd path srcDir))

def zipSingleFile (disk : Disk) (srcDir fileName : String) :
    Except PyError (Option (List Member)) :=
  let fullPath := normpath (osPathJoin srcDir fileName)
  match realpath disk.cwd srcDir, realpath disk.cwd fullPath with
  | some srcDirReal, some fullPathReal =>
    match commonpath srcDirReal fullPathReal with
    | none => .error .valueError
    | some common =>
      if common ≠ srcDirReal then .ok none
      else if disk.isfile fullPath = false then .ok none
      else match zipWrite disk fullPath fileName with
      | .error e => .error e
      | .ok m => .ok (some [m])
  | _, _ => .error .valueError

/-- The members of the archive a request asks for. -/
def requestedMembers (disk : Disk) (host : Host) (execution : Execution) (fields : Fields) :
    Except PyError (Option (List Member)) :=
  let fixtureDir := osPathJoin host.workspaceFixturesDir execution.workspaceFixture
  let requestedFile := fields.getD "requested_file" "*"
  if requestedFile = "*" ∨ requestedFile = "" then
    match zipDirectory disk fixtureDir with
    | .error e => .error e
    | .ok members => .ok (some members)
  else zipSingleFile disk fixtureDir requestedFile

/-- A host whose archives are made from the files of a disk. -/
def onDisk (host : Host) (disk : Disk) (archive : List (String × List UInt8) → Payload) : Host :=
  { host with
    zipDirectoryToBytes := fun srcDir =>
      match zipDirectory disk srcDir with
      | .error e => .error e
      | .ok members => .ok (archive (members.map Member.entry))
    zipSingleFileToBytes := fun srcDir fileName =>
      match zipSingleFile disk srcDir fileName with
      | .error e => .error e
      | .ok none => .ok none
      | .ok (some members) => .ok (some (archive (members.map Member.entry))) }

/-- The place of the directory of the fixtures. -/
def fixturesPlace (host : Host) (disk : Disk) : List String :=
  place disk.cwd host.workspaceFixturesDir

/-- The place of a fixture. -/
def fixturePlace (host : Host) (disk : Disk) (fixture : String) : List String :=
  place disk.cwd (osPathJoin host.workspaceFixturesDir fixture)

/-- Every request that is granted for a row with the fixture is answered with
files of the directory of the fixtures only. -/
def SendsOnlyFixtures (host : Host) (disk : Disk) (archive : List (String × List UInt8) → Payload)
    (fixture : String) : Prop :=
  ∀ db execution fields grant, execution.workspaceFixture = fixture →
    decideRequest (onDisk host disk archive) db execution fields = .ok (.granted grant) →
    ∃ members, requestedMembers disk host execution fields = .ok (some members) ∧
      grant.zip = archive (members.map Member.entry) ∧
      ∀ m ∈ members, fixturesPlace host disk <+: m.place

/-- The fixture lies in the directory of the fixtures, or no file elsewhere
lies below it. -/
def Contained (host : Host) (disk : Disk) (fixture : String) : Prop :=
  fixturesPlace host disk <+: fixturePlace host disk fixture ∨
    ∀ p content, disk.root.find p = some (.file content) → fixturePlace host disk fixture <+: p →
      fixturesPlace host disk <+: p

section Paths
variable {cwd : List String} {disk : Disk} {host : Host} {a b path : String}

/-- A joined relative path is split after the components of the first one; an
empty one at their end may be gone. -/
theorem split_osPathJoin (hb : isabs b = false) (hne : a ≠ "") :
    ∃ pre, split (osPathJoin a b) = pre ++ split b ∧ (split a = pre ∨ split a = pre ++ [""]) := by
  have hrel : ¬ b.toList.head? = some '/' := by simpa [isabs] using hb
  unfold osPathJoin
  rw [if_neg hrel]
  by_cases hlast : a.toList.getLast? = some '/'
  · rw [if_pos (Or.inr hlast)]
    obtain ⟨xs, hxs⟩ := List.getLast?_eq_some_iff.mp hlast
    have htext : a = String.ofList xs ++ "/" ++ "" := by
      rw [← String.toList_inj]
      simp [hxs]
    have hjoined : a ++ b = String.ofList xs ++ "/" ++ b := by
      rw [← String.toList_inj]
      simp [hxs]
    refine ⟨split (String.ofList xs), by rw [hjoined, split_append], Or.inr ?_⟩
    rw [htext, split_append, split_empty]
  · rw [if_neg (by rintro (h | h); exacts [hne h, hlast h]), String.append_assoc,
      ← String.append_assoc, split_append]
    exact ⟨split a, rfl, Or.inl rfl⟩

theorem osPathJoin_ne_empty (hb : isabs b = false) (hne : a ≠ "") : osPathJoin a b ≠ "" := by
  have hrel : ¬ b.toList.head? = some '/' := by simpa [isabs] using hb
  obtain ⟨x, xs, hx⟩ := List.exists_cons_of_ne_nil (fun he => hne (String.toList_eq_nil_iff.mp he))
  intro he
  have hl := congrArg String.toList he
  unfold osPathJoin at hl
  rw [if_neg hrel] at hl
  split at hl <;> simp [hx] at hl

theorem isabs_osPathJoin (hb : isabs b = false) (hne : a ≠ "") :
    isabs (osPathJoin a b) = isabs a := by
  have hrel : ¬ b.toList.head? = some '/' := by simpa [isabs] using hb
  obtain ⟨x, xs, hx⟩ := List.exists_cons_of_ne_nil (fun he => hne (String.toList_eq_nil_iff.mp he))
  have hfirst (s : String) : isabs (a ++ s) = isabs a := by
    simp [isabs, hx]
  unfold osPathJoin
  rw [if_neg hrel]
  split
  · exact hfirst b
  · rw [String.append_assoc]
    exact hfirst _

theorem start_osPathJoin (hb : isabs b = false) (hne : a ≠ "") :
    start cwd (osPathJoin a b) = start cwd a := by
  rw [start, isabs_osPathJoin hb hne, start]

/-- A relative path leads on from the place it is joined to. -/
theorem place_osPathJoin (hb : isabs b = false) :
    place cwd (osPathJoin a b) = (split b).foldl follow (place cwd a) := by
  by_cases hempty : a = ""
  · subst hempty
    have hrel : ¬ b.toList.head? = some '/' := by simpa [isabs] using hb
    simp [osPathJoin, place, start, hrel, split_empty, follow, isabs]
  · obtain ⟨pre, hsplit, hpre⟩ := split_osPathJoin hb hempty
    rw [place, start_osPathJoin hb hempty, hsplit, List.foldl_append]
    rcases hpre with he | he
    · rw [place, he]
    · rw [place, he, List.foldl_append]
      simp [follow]

theorem place_osPathJoin_part {c : String} (hc : IsPart c) :
    place cwd (osPathJoin a c) = place cwd a ++ [c] := by
  rw [place_osPathJoin (isabs_part hc), split_part hc]
  exact follow_part hc _

theorem files_below {entries : Forest} (h : path ∈ files a entries) :
    place cwd a <+: place cwd path := by
  induction entries using files.induct with
  | case1 => cases h
  | case2 name content rest ih =>
    rcases List.mem_cons.mp h with rfl | h
    · rw [place_osPathJoin_part name.isPart]
      exact List.prefix_append _ _
    · exact ih h
  | case3 name entries rest ih => exact ih h

mutual

theorem walkFiles_below {node : Tree} {a path : String} (h : path ∈ walkFiles a node) :
    place cwd a <+: place cwd path := by
  match node with
  | .file content => cases h
  | .dir entries =>
    rw [walkFiles] at h
    rcases List.mem_append.mp h with h | h
    · exact files_below h
    · exact walkDirs_below h

theorem walkDirs_below {entries : Forest} {a path : String} (h : path ∈ walkDirs a entries) :
    place cwd a <+: place cwd path := by
  match entries with
  | .nil => cases h
  | .cons name node rest =>
    rw [walkDirs] at h
    rcases List.mem_append.mp h with h | h
    · have hbelow := @walkFiles_below node _ path h
      rw [place_osPathJoin_part name.isPart] at hbelow
      exact (List.prefix_append _ _).trans hbelow
    · exact walkDirs_below h

end

theorem osWalk_below {top : String} {paths : List String} (h : osWalk disk top = .ok paths) :
    ∀ path ∈ paths, place disk.cwd top <+: place disk.cwd path := by
  unfold osWalk at h
  split at h
  · cases h
  · split at h
    · cases h
      simp
    · split at h
      · cases h
        simp
      · cases h
        exact fun path hpath => walkFiles_below hpath

/-- A member is a file of the disk, at the place of the path that was opened. -/
theorem zipWrite_ok {arcname : String} {m : Member} (h : zipWrite disk path arcname = .ok m) :
    m.place = place disk.cwd path ∧ disk.root.find m.place = some (.file m.content) := by
  unfold zipWrite at h
  cases hr : disk.read path with
  | none => simp [hr] at h
  | some r =>
    simp only [hr] at h
    cases h
    exact read_some hr

/-- The results are those of the elements. -/
theorem mapM_ok {α β : Type} {f : α → Except PyError β} {xs : List α} {ys : List β}
    (h : xs.mapM f = .ok ys) (y : β) : y ∈ ys ↔ ∃ x ∈ xs, f x = .ok y := by
  induction xs generalizing ys with
  | nil =>
    cases h
    simp
  | cons x xs ih =>
    rw [List.mapM_cons] at h
    cases hx : f x with
    | error e => simp [hx, bind, Except.bind] at h
    | ok first =>
      cases hxs : xs.mapM f with
      | error e => simp [hx, hxs, bind, Except.bind] at h
      | ok rest =>
        obtain rfl : first :: rest = ys := by
          simpa [hx, hxs, bind, Except.bind, pure, Except.pure] using h
        rw [List.mem_cons, ih hxs, List.exists_mem_cons_iff, hx, Except.ok.injEq, eq_comm]

/-- What an archive of a fixture can be made of. -/
def FromBelow (disk : Disk) (srcDir : String) (m : Member) : Prop :=
  place disk.cwd srcDir <+: m.place ∧ disk.root.find m.place = some (.file m.content)

theorem zipDirectory_below {srcDir : String} {members : List Member}
    (h : zipDirectory disk srcDir = .ok members) : ∀ m ∈ members, FromBelow disk srcDir m := by
  unfold zipDirectory at h
  cases hw : osWalk disk srcDir with
  | error e => simp [hw] at h
  | ok paths =>
    simp only [hw] at h
    intro m hm
    obtain ⟨path, hpath, hwrite⟩ := (mapM_ok h m).mp hm
    obtain ⟨hplace, hfile⟩ := zipWrite_ok hwrite
    exact ⟨hplace ▸ osWalk_below hw path hpath, hfile⟩

theorem zipSingleFile_below {srcDir fileName : String} {members : List Member}
    (h : zipSingleFile disk srcDir fileName = .ok (some members)) :
    ∀ m ∈ members, FromBelow disk srcDir m := by
  unfold zipSingleFile at h
  simp only at h
  split at h
  · rename_i srcDirReal fullPathReal hsrc hfull
    split at h
    · cases h
    · rename_i common hcommon
      split at h
      · cases h
      · rename_i heq
        split at h
        · cases h
        · split at h
          · cases h
          · rename_i m hwrite
            cases h
            intro m' hm
            obtain rfl := List.mem_singleton.mp hm
            obtain ⟨hplace, hfile⟩ := zipWrite_ok hwrite
            refine ⟨?_, hfile⟩
            rw [hplace]
            obtain rfl := not_not.mp heq
            unfold realpath at hsrc hfull
            split at hsrc
            · cases hsrc
            · split at hfull
              · cases hfull
              · cases hsrc
                cases hfull
                have hp := place_parts disk.cwdParts
                exact (commonpath_absolute (hp _) (hp _)).mp hcommon
  · cases h

/-- Whatever is asked for, only files below the fixture are read. -/
theorem requestedMembers_below {execution : Execution} {fields : Fields} {members : List Member}
    (h : requestedMembers disk host execution fields = .ok (some members)) :
    ∀ m ∈ members, FromBelow disk
      (osPathJoin host.workspaceFixturesDir execution.workspaceFixture) m := by
  unfold requestedMembers at h
  simp only at h
  split at h
  · split at h
    · cases h
    · rename_i found hzip
      cases h
      exact zipDirectory_below hzip
  · exact zipSingleFile_below h

/-- The text of a request for the file at a place below the fixture. -/
def requestFor (fixture p : List String) : String := "./" ++ join (p.drop fixture.length)

theorem requestFor_named (fixture p : List String) :
    requestFor fixture p ≠ "*" ∧ requestFor fixture p ≠ "" ∧
      isabs (requestFor fixture p) = false := by
  refine ⟨?_, ?_, ?_⟩
  · intro h
    have hl := congrArg String.toList h
    simp [requestFor] at hl
  · intro h
    have hl := congrArg String.toList h
    simp [requestFor] at hl
  · simp [requestFor, isabs]

/-- The names on the way to a node are names of entries. -/
theorem find_names {entries : Forest} {c : String} {node : Tree}
    (h : entries.get? c = some node) : IsPart c ∧ hasNul c = false := by
  match entries with
  | .nil => cases h
  | .cons name node' rest =>
    rw [Forest.get?] at h
    split at h
    · rename_i hname
      exact hname ▸ ⟨name.isPart, name.noNul⟩
    · exact find_names h

theorem find_parts {root node : Tree} {p : List String} (h : root.find p = some node) :
    ∀ c ∈ p, IsPart c ∧ hasNul c = false := by
  induction p generalizing root with
  | nil => simp
  | cons c p ih =>
    cases root with
    | file _ => cases h
    | dir entries =>
      rw [Tree.find] at h
      cases hg : entries.get? c with
      | none => simp [hg] at h
      | some next =>
        simp only [hg] at h
        intro d hd
        rcases List.mem_cons.mp hd with rfl | hd
        · exact find_names hg
        · exact ih h d hd

/-- The request leads from the fixture to the file. -/
theorem place_requestFor {srcDir : String} {p : List String} {node : Tree}
    (hbelow : place disk.cwd srcDir <+: p) (h : disk.root.find p = some node) :
    place disk.cwd (osPathJoin srcDir (requestFor (place disk.cwd srcDir) p)) = p := by
  have hparts : ∀ c ∈ p.drop (place disk.cwd srcDir).length, IsPart c :=
    fun c hc => (find_parts h c (List.mem_of_mem_drop hc)).1
  have hrest : Parts (p.drop (place disk.cwd srcDir).length) := hparts
  obtain ⟨pad, hpad, hsplit⟩ := split_join_pad hrest.normal
  have htext : requestFor (place disk.cwd srcDir) p =
      "." ++ "/" ++ join (p.drop (place disk.cwd srcDir).length) := by
    rw [requestFor, ← String.toList_inj]
    simp
  rw [place_osPathJoin (requestFor_named _ _).2.2, htext, split_append, hsplit,
    List.foldl_append, List.foldl_append, hpad.follow, foldl_follow_parts hparts]
  have hdot : split "." = ["."] := by decide
  obtain ⟨rest, rfl⟩ := hbelow
  simp [hdot, follow]

theorem hasNul_osPathJoin (ha : hasNul a = false) (hb : hasNul b = false) :
    hasNul (osPathJoin a b) = false := by
  unfold osPathJoin
  split
  · exact hb
  · split
    · exact hasNul_append.mpr ⟨ha, hb⟩
    · exact hasNul_append.mpr ⟨hasNul_append.mpr ⟨ha, by decide⟩, hb⟩

theorem zipSingleFile_requestFor {srcDir : String} {p : List String} {content : List UInt8}
    (hnul : hasNul srcDir = false) (hbelow : place disk.cwd srcDir <+: p)
    (h : disk.root.find p = some (.file content)) :
    zipSingleFile disk srcDir (requestFor (place disk.cwd srcDir) p) =
      .ok (some [⟨requestFor (place disk.cwd srcDir) p, content, p⟩]) := by
  have hrequest : hasNul (requestFor (place disk.cwd srcDir) p) = false := by
    refine hasNul_append.mpr ⟨by decide, hasNul_join fun c hc => ?_⟩
    exact (find_parts h c (List.mem_of_mem_drop hc)).2
  have hfull := hasNul_osPathJoin hnul hrequest
  have hplace := place_requestFor hbelow h
  have hread : disk.read (normpath (osPathJoin srcDir (requestFor (place disk.cwd srcDir) p))) =
      some (p, content) := by
    have hfound := h
    rw [← hplace] at hfound
    rw [read_normpath hfull hfound, hplace]
  have hreal : realpath disk.cwd srcDir = some (absolute (place disk.cwd srcDir)) := by
    simp [realpath, hnul]
  have hreal' : realpath disk.cwd
      (normpath (osPathJoin srcDir (requestFor (place disk.cwd srcDir) p))) =
      some (absolute p) := by
    simp [realpath, hasNul_normpath hfull, place_normpath, hplace]
  have hcommon : commonpath (absolute (place disk.cwd srcDir)) (absolute p) =
      some (absolute (place disk.cwd srcDir)) :=
    (commonpath_absolute (place_parts disk.cwdParts _) (fun c hc => (find_parts h c hc).1)).mpr
      hbelow
  simp [zipSingleFile, hreal, hreal', hcommon, Disk.isfile, zipWrite, hread]

end Paths

section Requests
variable {host : Host} {disk before : Disk} {archive : List (String × List UInt8) → Payload}
variable {db : DB} {body : Fields} {delegate : Delegate} {fixture : String}

theorem requestedZip_onDisk (execution : Execution) (fields : Fields) :
    requestedZip (onDisk host disk archive) execution fields =
      match requestedMembers disk host execution fields with
      | .error e => .error e
      | .ok none => .ok none
      | .ok (some members) => .ok (some (archive (members.map Member.entry))) := by
  unfold requestedZip requestedMembers
  simp only [onDisk]
  split
  · cases zipDirectory disk (osPathJoin host.workspaceFixturesDir execution.workspaceFixture) with
    | error e => rfl
    | ok members => rfl
  · rfl

theorem decideRequest_zip {execution : Execution} {fields : Fields} {grant : Grant}
    (h : decideRequest host db execution fields = .ok (.granted grant)) :
    requestedZip host execution fields = .ok (some grant.zip) := by
  unfold decideRequest at h
  cases hd : requestDelegate db fields with
  | error e => simp [hd] at h
  | ok found =>
    cases found with
    | none => simp [hd] at h
    | some delegate =>
      simp only [hd] at h
      split at h
      · split at h
        · cases h
        · cases h
        · rename_i zip hzip
          cases h
          exact hzip
      · cases h

theorem granted_members {execution : Execution} {fields : Fields} {grant : Grant}
    (h : decideRequest (onDisk host disk archive) db execution fields = .ok (.granted grant)) :
    ∃ members, requestedMembers disk host execution fields = .ok (some members) ∧
      grant.zip = archive (members.map Member.entry) := by
  have hzip := decideRequest_zip h
  rw [requestedZip_onDisk] at hzip
  cases hm : requestedMembers disk host execution fields with
  | error e => simp [hm] at hzip
  | ok found =>
    cases found with
    | none => simp [hm] at hzip
    | some members =>
      simp only [hm, Except.ok.injEq, Option.some.injEq] at hzip
      exact ⟨members, rfl, hzip.symm⟩

/-- Files below a contained fixture are files of the directory of the fixtures. -/
theorem Contained.sends (hc : Contained host disk fixture) :
    SendsOnlyFixtures host disk archive fixture := by
  rintro db execution fields grant rfl h
  obtain ⟨members, hmembers, hzip⟩ := granted_members h
  refine ⟨members, hmembers, hzip, fun m hm => ?_⟩
  obtain ⟨hbelow, hfile⟩ := requestedMembers_below hmembers m hm
  rcases hc with hinside | hnone
  · exact hinside.trans hbelow
  · exact hnone m.place m.content hfile hbelow

/-- What `create_execution` has looked up and found. -/
theorem checkExecution_read {isDir : String → Bool}
    (h : checkExecution host isDir db body = .ok (.ok delegate)) :
    db.delegate delegate.id = some delegate ∧
      isDir (osPathJoin host.workspaceFixturesDir (body.getD "workspace_fixture" "")) = true := by
  unfold checkExecution at h
  split at h
  · cases h
  · split at h
    · cases h
    · split at h
      · cases h
      · rename_i row hrow
        split at h
        · cases h
        · split at h
          · cases h
          · split at h
            · rename_i hdir
              cases h
              have hid : delegate.id = _ := KeyedTable.get?_some_key hrow
              exact ⟨hid ▸ hrow, hdir⟩
            · cases h

theorem noNul_of_isdir {path : String} (h : disk.isdir path = true) : hasNul path = false := by
  cases hn : hasNul path with
  | false => rfl
  | true => simp [Disk.isdir, Disk.resolve, hn] at h

/-- A request of the assigned delegate for a file below the fixture is granted. -/
theorem granted_requestFor {p : List String} {content : List UInt8} {executionId : UUID}
    (accepted : checkExecution host before.isdir db body = .ok (.ok delegate))
    (hbelow : fixturePlace host disk (body.getD "workspace_fixture" "") <+: p)
    (h : disk.root.find p = some (.file content)) :
    ∃ fields grant m, decideRequest (onDisk host disk archive) db
        (newExecution body delegate executionId) fields = .ok (.granted grant) ∧
      requestedMembers disk host (newExecution body delegate executionId) fields =
        .ok (some [m]) ∧ m.place = p := by
  obtain ⟨-, htenant, hactive⟩ := checkExecution_ok accepted
  obtain ⟨hrow, hdir⟩ := checkExecution_read accepted
  let srcDir := osPathJoin host.workspaceFixturesDir (body.getD "workspace_fixture" "")
  let request := requestFor (place disk.cwd srcDir) p
  let fields : Fields := [("tenant_id", body.getD "tenant_id" ""),
    ("delegate_id", str delegate.id), ("requested_file", request)]
  let row := newExecution body delegate executionId
  have hfile : fields.getD "requested_file" "*" = request := rfl
  have hmembers : requestedMembers disk host row fields =
      .ok (some [⟨request, content, p⟩]) := by
    unfold requestedMembers
    obtain ⟨hstar, hempty, -⟩ := requestFor_named (place disk.cwd srcDir) p
    simp only [hfile]
    rw [if_neg (by rintro (he | he); exacts [hstar he, hempty he])]
    exact zipSingleFile_requestFor (noNul_of_isdir hdir) hbelow h
  have hzip : requestedZip (onDisk host disk archive) row fields =
      .ok (some (archive [(request, content)])) := by
    rw [requestedZip_onDisk, hmembers]
    rfl
  have hdelegate : requestDelegate db fields = .ok (some delegate) := by
    have hid : fields.getD "delegate_id" "" = str delegate.id := rfl
    simp [requestDelegate, hid, uuidField, parse_str, hrow]
  have hauthorized : Authorized (some delegate) row fields :=
    ⟨delegate, rfl, hactive, htenant, rfl, rfl⟩
  refine ⟨fields, ⟨delegate, row, archive [(request, content)]⟩, ⟨request, content, p⟩, ?_,
    hmembers, rfl⟩
  unfold decideRequest
  simp only [hdelegate]
  rw [if_pos hauthorized, hzip]

/-- An accepted fixture lets only files of the directory of the fixtures out,
exactly if it is contained in it. -/
theorem sends_only_fixtures_iff
    (accepted : checkExecution host before.isdir db body = .ok (.ok delegate)) :
    SendsOnlyFixtures host disk archive (body.getD "workspace_fixture" "") ↔
      Contained host disk (body.getD "workspace_fixture" "") := by
  constructor
  · intro sends
    right
    intro p content hfile hbelow
    have asked : ∃ fields grant m, decideRequest (onDisk host disk archive) db
        (newExecution body delegate 0) fields = .ok (.granted grant) ∧
        requestedMembers disk host (newExecution body delegate 0) fields = .ok (some [m]) ∧
        m.place = p := granted_requestFor accepted hbelow hfile
    obtain ⟨fields, grant, m, hgrant, hmembers, hplace⟩ := asked
    obtain ⟨members, hmembers', -, hinside⟩ := sends db _ fields grant rfl hgrant
    rw [hmembers] at hmembers'
    cases hmembers'
    exact hplace ▸ hinside m (List.mem_singleton_self m)
  · exact Contained.sends

/-- `/app/ca/ca.key` and the empty fixture `/app/fixtures/empty`. -/
def smallDisk : Disk where
  entries := .cons ⟨"app", by decide, by decide⟩ (.dir
    (.cons ⟨"ca", by decide, by decide⟩
      (.dir (.cons ⟨"ca.key", by decide, by decide⟩ (.file [1]) .nil))
    (.cons ⟨"fixtures", by decide, by decide⟩
      (.dir (.cons ⟨"empty", by decide, by decide⟩ (.dir .nil) .nil)) .nil))) .nil
  cwd := ["app"]
  cwdParts := by simp [Parts, IsPart]
  cwdIsDir := rfl

def besideBody : Fields :=
  [("tenant_id", "acme"), ("name", "delegate"), ("delegate_id", str 1),
    ("workspace_fixture", "../ca")]

def smallOwner : Delegate := newDelegate besideBody 1 1

def smallRows : DB :=
  { DB.empty with delegates := KeyedTable.Table.put (KeyedTable.empty _) smallOwner }

theorem beside_accepted :
    checkExecution smallHost smallDisk.isdir smallRows besideBody = .ok (.ok smallOwner) := by
  rfl

theorem beside_sends_iff :
    SendsOnlyFixtures smallHost smallDisk (fun _ => emptyZip) "../ca" ↔
      Contained smallHost smallDisk "../ca" :=
  sends_only_fixtures_iff beside_accepted

theorem ca_key_sent :
    checkExecution smallHost smallDisk.isdir smallRows besideBody = .ok (.ok smallOwner) ∧
      ¬ SendsOnlyFixtures smallHost smallDisk (fun _ => emptyZip) "../ca" := by
  refine ⟨beside_accepted, fun sends => ?_⟩
  have hbelow : fixturePlace smallHost smallDisk "../ca" <+: ["app", "ca", "ca.key"] := by
    decide +kernel
  have asked : ∃ fields grant m, decideRequest (onDisk smallHost smallDisk (fun _ => emptyZip))
      smallRows (newExecution besideBody smallOwner 0) fields = .ok (.granted grant) ∧
      requestedMembers smallDisk smallHost (newExecution besideBody smallOwner 0) fields =
        .ok (some [m]) ∧ m.place = ["app", "ca", "ca.key"] :=
    granted_requestFor beside_accepted hbelow rfl
  obtain ⟨fields, grant, m, hgrant, hmembers, hplace⟩ := asked
  obtain ⟨members, hmembers', -, hinside⟩ := sends _ _ _ _ rfl hgrant
  rw [hmembers] at hmembers'
  cases hmembers'
  have hm := hinside m (List.mem_singleton_self m)
  rw [hplace] at hm
  revert hm
  decide +kernel

end Requests

end WorkspaceFixtures
