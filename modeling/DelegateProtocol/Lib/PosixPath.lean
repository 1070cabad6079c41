import Mathlib.Data.List.Basic
import Mathlib.Data.List.TakeDrop
import Mathlib.Data.List.DropRight

/-!
# Paths and a tree of files

The functions of `posixpath` on texts, and a disk of directories and regular
files without symbolic links, on which a path is resolved name by name. A place
is the list of the names from the root. Paths have no maximal length.
-/

namespace PosixPath

/-- `path.split("/")`. -/
def split (path : String) : List String := (path.toList.splitOn '/').map String.ofList

/-- `"/".join(names)`. -/
def join (names : List String) : String :=
  String.ofList (['/'].intercalate (names.map String.toList))

def isabs (path : String) : Bool := path.toList.head? == some '/'

def hasNul (path : String) : Bool := path.toList.contains '\x00'

/-- A component that is neither empty nor one of the two dots. -/
def IsPart (c : String) : Prop := c ≠ "" ∧ c ≠ "." ∧ c ≠ ".." ∧ '/' ∉ c.toList

instance (c : String) : Decidable (IsPart c) :=
  inferInstanceAs (Decidable (_ ∧ _ ∧ _ ∧ ¬ _))

/-- Where a component leads from a place. -/
def follow (place : List String) (c : String) : List String :=
  if c = "" ∨ c = "." then place
  else if c = ".." then place.dropLast
  else place ++ [c]

def start (cwd : List String) (path : String) : List String := if isabs path then [] else cwd

/-- The place a path denotes when every name on its way is a directory. -/
def place (cwd : List String) (path : String) : List String :=
  (split path).foldl follow (start cwd path)

def normStep (absolute : Bool) (comps : List String) (c : String) : List String :=
  if c = "" ∨ c = "." then comps
  else if c ≠ ".." ∨ (absolute = false ∧ comps = []) ∨ comps.getLast? = some ".." then
    comps ++ [c]
  else comps.dropLast

/-- Two leading slashes are kept, three or more are one. -/
def initialSlashes (path : String) : Nat :=
  match path.toList with
  | '/' :: '/' :: '/' :: _ => 1
  | '/' :: '/' :: _ => 2
  | '/' :: _ => 1
  | _ => 0

def normComps (path : String) : List String :=
  (split path).foldl (normStep (isabs path)) []

def normpath (path : String) : String :=
  let normal := String.ofList (List.replicate (initialSlashes path) '/') ++ join (normComps path)
  if normal = "" then "." else normal

/-- The text of a place. -/
def absolute (place : List String) : String := "/" ++ join place

/-- `realpath` where there are no symbolic links; a NUL in the text is a
ValueError. -/
def realpath (cwd : List String) (path : String) : Option String :=
  if hasNul path then none else some (absolute (place cwd path))

def commonPrefix : List String → List String → List String
  | a :: as, b :: bs => if a = b then a :: commonPrefix as bs else []
  | _, _ => []

def parts (path : String) : List String :=
  (split path).filter (fun c => decide (c ≠ "" ∧ c ≠ "."))

/-- `commonpath([a, b])`; absolute and relative paths cannot be mixed. -/
def commonpath (a b : String) : Option String :=
  if isabs a = isabs b then
    some ((if isabs a then "/" else "") ++ join (commonPrefix (parts a) (parts b)))
  else none

def relpath (cwd : List String) (path start : String) : String :=
  let startList := place cwd start
  let pathList := place cwd path
  let shared := (commonPrefix startList pathList).length
  let rel := List.replicate (startList.length - shared) ".." ++ pathList.drop shared
  if rel = [] then "." else join rel

section Texts
variable {cwd : List String} {path : String} {c : String} {cs : List String}

theorem splitOn_noSep {l xs : List Char} (h : xs ∈ l.splitOn '/') : '/' ∉ xs := by
  induction l generalizing xs with
  | nil =>
    obtain rfl : xs = [] := by simpa using h
    simp
  | cons x l ih =>
    rw [List.splitOn_cons_eq_if_modifyHead] at h
    split at h
    · rcases List.mem_cons.mp h with rfl | h
      · simp
      · exact ih h
    · rename_i hx
      cases hs : l.splitOn '/' with
      | nil => exact absurd hs (List.splitOn_ne_nil '/' l)
      | cons head rest =>
        rw [hs] at h ih
        rw [List.modifyHead_cons] at h
        rcases List.mem_cons.mp h with rfl | h
        · have hhead := ih List.mem_cons_self
          intro hmem
          rcases List.mem_cons.mp hmem with heq | hmem
          · simp [← heq] at hx
          · exact hhead hmem
        · exact ih (List.mem_cons_of_mem _ h)

theorem split_noSlash (h : c ∈ split path) : '/' ∉ c.toList := by
  obtain ⟨xs, hxs, rfl⟩ := List.mem_map.mp h
  simpa using splitOn_noSep hxs

theorem split_append (a b : String) : split (a ++ "/" ++ b) = split a ++ split b := by
  have hl : (a ++ "/" ++ b).toList = a.toList ++ '/' :: b.toList := by simp
  rw [split, hl, List.splitOn_append_cons_self, List.map_append]
  rfl

theorem split_empty : split "" = [""] := by decide

theorem split_join (hne : cs ≠ []) (h : ∀ c ∈ cs, '/' ∉ c.toList) : split (join cs) = cs := by
  have hparts : ∀ l ∈ cs.map String.toList, '/' ∉ l := by
    intro l hl
    obtain ⟨c, hc, rfl⟩ := List.mem_map.mp hl
    exact h c hc
  rw [split, join, String.toList_ofList, List.splitOn_intercalate '/' hparts (by simpa using hne),
    List.map_map]
  simp

theorem join_head (h : ∀ c ∈ cs, IsPart c ∨ c = "..") : (join cs).toList.head? ≠ some '/' := by
  cases cs with
  | nil => simp [join]
  | cons c rest =>
    have hc : c ≠ "" ∧ '/' ∉ c.toList := by
      rcases h c List.mem_cons_self with hc | rfl
      · exact ⟨hc.1, hc.2.2.2⟩
      · decide
    obtain ⟨x, xs, hx⟩ := List.exists_cons_of_ne_nil (fun he => hc.1 (String.toList_eq_nil_iff.mp he))
    have hne : x ≠ '/' := by
      rintro rfl
      exact hc.2 (hx ▸ List.mem_cons_self)
    cases rest with
    | nil => simp [join, hx, hne]
    | cons d rest => simp [join, hx, hne, List.intercalate_cons_cons]

theorem join_eq_empty (h : ∀ c ∈ cs, c ≠ "") : join cs = "" ↔ cs = [] := by
  constructor
  · intro he
    cases cs with
    | nil => rfl
    | cons c rest =>
      have hc := h c List.mem_cons_self
      obtain ⟨x, xs, hx⟩ := List.exists_cons_of_ne_nil (fun he => hc (String.toList_eq_nil_iff.mp he))
      have hl := congrArg String.toList he
      cases rest with
      | nil => simp [join, hx] at hl
      | cons d rest => simp [join, hx, List.intercalate_cons_cons] at hl
  · rintro rfl
    rfl

theorem follow_part (h : IsPart c) (p : List String) : follow p c = p ++ [c] := by
  simp [follow, h.1, h.2.1, h.2.2.1]

theorem follow_up (p : List String) : follow p ".." = p.dropLast := by
  simp [follow]

theorem foldl_follow_parts (h : ∀ c ∈ cs, IsPart c) (p : List String) :
    cs.foldl follow p = p ++ cs := by
  induction cs generalizing p with
  | nil => simp
  | cons c cs ih =>
    have hrest := ih (fun d hd => h d (List.mem_cons_of_mem c hd))
    rw [List.foldl_cons, follow_part (h c List.mem_cons_self), hrest]
    simp

/-- Steps up, in a relative path only, and then names. -/
def Normal (absolute : Bool) (cs : List String) : Prop :=
  ∃ k names, cs = List.replicate k ".." ++ names ∧ (∀ c ∈ names, IsPart c) ∧
    (absolute = true → k = 0)

theorem Normal.mem {absolute : Bool} (h : Normal absolute cs) : ∀ c ∈ cs, IsPart c ∨ c = ".." := by
  obtain ⟨k, names, rfl, hnames, -⟩ := h
  intro c hc
  rcases List.mem_append.mp hc with hc | hc
  · exact Or.inr (List.eq_of_mem_replicate hc)
  · exact Or.inl (hnames c hc)

theorem Normal.noSlash {absolute : Bool} (h : Normal absolute cs) : ∀ c ∈ cs, '/' ∉ c.toList := by
  intro c hc
  rcases h.mem c hc with hc | rfl
  · exact hc.2.2.2
  · decide

theorem Normal.nonempty {absolute : Bool} (h : Normal absolute cs) : ∀ c ∈ cs, c ≠ "" := by
  intro c hc
  rcases h.mem c hc with hc | rfl
  · exact hc.1
  · decide

theorem getLast?_ups (k : Nat) : (List.replicate (k + 1) "..").getLast? = some ".." := by
  rw [List.getLast?_replicate]
  simp

/-- One component keeps the normal form, and leads where it leads. -/
theorem normStep_normal {absolute : Bool} (h : Normal absolute cs) (hc : '/' ∉ c.toList)
    (p : List String) (hp : absolute = true → p = []) :
    Normal absolute (normStep absolute cs c) ∧
      (normStep absolute cs c).foldl follow p = follow (cs.foldl follow p) c := by
  obtain ⟨k, names, rfl, hnames, habs⟩ := h
  by_cases hdot : c = "" ∨ c = "."
  · exact ⟨⟨k, names, by simp [normStep, hdot], hnames, habs⟩, by simp [normStep, follow, hdot]⟩
  by_cases hup : c = ".."
  · subst hup
    cases hn : names.reverse with
    | nil =>
      obtain rfl : names = [] := by simpa using hn
      cases k with
      | zero =>
        cases absolute with
        | true =>
          refine ⟨⟨0, [], by simp [normStep], by simp, by simp⟩, ?_⟩
          simp [normStep, follow, hp rfl]
        | false =>
          refine ⟨⟨1, [], by simp [normStep], by simp, by simp⟩, ?_⟩
          simp [normStep]
      | succ k =>
        have hpush : normStep absolute (List.replicate (k + 1) ".." ++ []) ".." =
            List.replicate (k + 1) ".." ++ [".."] := by
          rw [List.append_nil, normStep, if_neg hdot, if_pos (Or.inr (Or.inr (getLast?_ups k)))]
        rw [hpush]
        refine ⟨⟨k + 2, [], by simp [List.replicate_succ'], by simp, ?_⟩, by simp⟩
        intro ha
        exact absurd (habs ha) (by omega)
    | cons last rest =>
      obtain rfl : names = rest.reverse ++ [last] := by
        rw [← List.reverse_reverse names, hn, List.reverse_cons]
      have hlast : IsPart last := hnames last (by simp)
      have hpop : normStep absolute (List.replicate k ".." ++ (rest.reverse ++ [last])) ".." =
          List.replicate k ".." ++ rest.reverse := by
        rw [← List.append_assoc, normStep, if_neg hdot, if_neg]
        · simp
        · rintro (hne | ⟨-, hnil⟩ | htop)
          · exact hne rfl
          · simp at hnil
          · rw [List.getLast?_concat] at htop
            exact hlast.2.2.1 (Option.some.inj htop)
      rw [hpop]
      refine ⟨⟨k, rest.reverse, rfl, fun d hd => hnames d (by simp at hd ⊢; exact Or.inl hd),
        habs⟩, ?_⟩
      rw [← List.append_assoc, List.foldl_concat, follow_part hlast, follow_up,
        List.dropLast_concat]
  · have hpush : normStep absolute (List.replicate k ".." ++ names) c =
        List.replicate k ".." ++ names ++ [c] := by
      rw [normStep, if_neg hdot, if_pos (Or.inl hup)]
    have hpart : IsPart c := ⟨fun he => hdot (Or.inl he), fun he => hdot (Or.inr he), hup, hc⟩
    rw [hpush]
    refine ⟨⟨k, names ++ [c], by simp, ?_, habs⟩, by simp⟩
    intro d hd
    rcases List.mem_append.mp hd with hd | hd
    · exact hnames d hd
    · obtain rfl := List.mem_singleton.mp hd
      exact hpart

theorem normComps_spec (hp : ∀ c ∈ cs, '/' ∉ c.toList) {absolute : Bool} (p : List String)
    (hpl : absolute = true → p = []) {comps : List String} (h : Normal absolute comps) :
    Normal absolute (cs.foldl (normStep absolute) comps) ∧
      (cs.foldl (normStep absolute) comps).foldl follow p = cs.foldl follow (comps.foldl follow p) := by
  induction cs generalizing comps with
  | nil => exact ⟨h, rfl⟩
  | cons c cs ih =>
    obtain ⟨hstep, hfollow⟩ := normStep_normal h (hp c List.mem_cons_self) p hpl
    obtain ⟨hnormal, hall⟩ := ih (fun d hd => hp d (List.mem_cons_of_mem c hd)) hstep
    refine ⟨hnormal, ?_⟩
    rw [List.foldl_cons, hall, hfollow]
    rfl

theorem Normal.nil (absolute : Bool) : Normal absolute [] := ⟨0, [], by simp, by simp, by simp⟩

theorem normComps_normal (path : String) : Normal (isabs path) (normComps path) :=
  (normComps_spec (fun _ hc => split_noSlash hc) [] (fun _ => rfl) (Normal.nil _)).1

theorem normComps_place (cwd : List String) (path : String) :
    (normComps path).foldl follow (start cwd path) = place cwd path := by
  refine (normComps_spec (fun _ hc => split_noSlash hc) (start cwd path) ?_ (Normal.nil _)).2
  intro h
  simp [start, h]

/-- Without steps up only what leads nowhere is left out. -/
theorem foldl_normStep_noUps {absolute : Bool} (comps : List String) (hup : ".." ∉ cs) :
    cs.foldl (normStep absolute) comps =
      comps ++ cs.filter (fun c => decide (c ≠ "" ∧ c ≠ ".")) := by
  induction cs generalizing comps with
  | nil => simp
  | cons c cs ih =>
    obtain ⟨hc, hrest⟩ := List.ne_and_not_mem_of_not_mem_cons hup
    rw [List.foldl_cons, ih _ hrest]
    by_cases hdot : c = "" ∨ c = "."
    · have hidle : decide (c ≠ "" ∧ c ≠ ".") = false :=
        decide_eq_false (fun h => hdot.elim h.1 h.2)
      rw [List.filter_cons_of_neg (by rw [hidle]; decide), normStep, if_pos hdot]
    · have hkept : c ≠ "" ∧ c ≠ "." := not_or.mp hdot
      rw [List.filter_cons_of_pos (by simpa using hkept), normStep, if_neg hdot,
        if_pos (Or.inl (Ne.symm hc))]
      simp

/-- Steps up that are left over stay. -/
theorem normStep_ups {absolute : Bool} (h : ".." ∈ cs) : ".." ∈ normStep absolute cs c := by
  unfold normStep
  split
  · exact h
  · split
    · exact List.mem_append_left _ h
    · rename_i hpop
      cases hcs : cs.reverse with
      | nil =>
        obtain rfl : cs = [] := by simpa using hcs
        cases h
      | cons last rest =>
        obtain rfl : cs = rest.reverse ++ [last] := by
          rw [← List.reverse_reverse cs, hcs, List.reverse_cons]
        rw [List.dropLast_concat]
        rcases List.mem_append.mp h with h | h
        · exact h
        · obtain rfl := List.mem_singleton.mp h
          exact absurd (Or.inr (Or.inr (by simp))) hpop

/-- Components that do not lead up stay behind those before them. -/
theorem foldl_normStep_append {absolute : Bool} (comps : List String)
    (h : ".." ∉ cs.foldl (normStep false) []) :
    cs.foldl (normStep absolute) comps = comps ++ cs.foldl (normStep false) [] := by
  induction cs using List.reverseRecOn with
  | nil => simp
  | append_singleton cs c ih =>
    rw [List.foldl_concat] at h
    have hbefore : ".." ∉ cs.foldl (normStep false) [] := fun hup => h (normStep_ups hup)
    rw [List.foldl_concat, List.foldl_concat, ih hbefore]
    generalize cs.foldl (normStep false) [] = names at h hbefore ⊢
    by_cases hdot : c = "" ∨ c = "."
    · simp [normStep, hdot]
    · by_cases hup : c = ".."
      · subst hup
        cases hn : names.reverse with
        | nil =>
          obtain rfl : names = [] := by simpa using hn
          simp [normStep] at h
        | cons last rest =>
          obtain rfl : names = rest.reverse ++ [last] := by
            rw [← List.reverse_reverse names, hn, List.reverse_cons]
          have hlast : last ≠ ".." := by
            rintro rfl
            exact hbefore (by simp)
          simp [normStep, ← List.append_assoc, hlast]
      · simp [normStep, hdot, hup]

/-- Components that lead nowhere. -/
def Idle (pad : List String) : Prop := ∀ c ∈ pad, c = "" ∨ c = "."

theorem Idle.follow {pad : List String} (h : Idle pad) (p : List String) :
    pad.foldl follow p = p := by
  induction pad with
  | nil => rfl
  | cons c pad ih =>
    have hc : PosixPath.follow p c = p := by simp [PosixPath.follow, h c List.mem_cons_self]
    rw [List.foldl_cons, hc]
    exact ih (fun d hd => h d (List.mem_cons_of_mem c hd))

theorem split_slash (s : String) : split ("/" ++ s) = "" :: split s := by
  have h := split_append "" s
  rwa [String.empty_append, split_empty] at h

theorem split_join_pad {absolute : Bool} (h : Normal absolute cs) :
    ∃ pad, Idle pad ∧ split (join cs) = pad ++ cs := by
  cases cs with
  | nil => exact ⟨[""], by simp [Idle], rfl⟩
  | cons c rest => exact ⟨[], by simp [Idle], split_join (by simp) h.noSlash⟩

theorem isabs_join {absolute : Bool} (h : Normal absolute cs) : isabs (join cs) = false := by
  have hhead := join_head h.mem
  simpa [isabs] using hhead

theorem isabs_part (h : IsPart c) : isabs c = false := by
  have hhead := @join_head [c] (by simp [h])
  simpa [isabs, join] using hhead

theorem split_part (h : IsPart c) : split c = [c] := by
  rw [split, List.splitOn_eq_singleton h.2.2.2]
  simp

/-- A path with slashes in front. -/
theorem initialSlashes_cases (path : String) :
    initialSlashes path = 0 ∧ isabs path = false ∨
      (initialSlashes path = 1 ∨ initialSlashes path = 2) ∧ isabs path = true := by
  unfold initialSlashes isabs
  split
  case h_1 hl => simp [hl]
  case h_2 hl => simp [hl]
  case h_3 hl => simp [hl]
  case h_4 h₁ h₂ h₃ =>
    left
    refine ⟨rfl, ?_⟩
    cases hl : path.toList with
    | nil => rfl
    | cons x xs =>
      have hne : x ≠ '/' := by
        rintro rfl
        exact h₃ xs hl
      simp [hne]

/-- The components of a normalised path are the normal ones, after some that
lead nowhere. -/
theorem normpath_split (path : String) : ∃ pad, Idle pad ∧
    split (normpath path) = pad ++ normComps path ∧ isabs (normpath path) = isabs path := by
  have hn := normComps_normal path
  obtain ⟨pad, hpad, hsplit⟩ := split_join_pad hn
  rcases initialSlashes_cases path with ⟨hslashes, habs⟩ | ⟨hslashes, habs⟩
  · have htext : normpath path = if normComps path = [] then "." else join (normComps path) := by
      simp [normpath, hslashes, join_eq_empty hn.nonempty]
    rw [htext]
    split
    · rename_i hnil
      exact ⟨["."], by simp [Idle], by rw [hnil]; rfl, by rw [habs]; rfl⟩
    · exact ⟨pad, hpad, hsplit, by rw [habs, isabs_join hn]⟩
  · rcases hslashes with hslashes | hslashes
    · have htext : normpath path = "/" ++ join (normComps path) := by
        simp [normpath, hslashes]
      rw [htext, split_slash, hsplit]
      refine ⟨"" :: pad, ?_, rfl, ?_⟩
      · intro c hc
        rcases List.mem_cons.mp hc with rfl | hc
        · exact Or.inl rfl
        · exact hpad c hc
      · rw [habs]
        simp [isabs]
    · have htext : normpath path = "/" ++ ("/" ++ join (normComps path)) := by
        simp [normpath, hslashes, ← String.append_assoc]
      rw [htext, split_slash, split_slash, hsplit]
      refine ⟨"" :: "" :: pad, ?_, rfl, ?_⟩
      · intro c hc
        rcases List.mem_cons.mp hc with rfl | hc
        · exact Or.inl rfl
        · rcases List.mem_cons.mp hc with rfl | hc
          · exact Or.inl rfl
          · exact hpad c hc
      · rw [habs]
        simp [isabs]

theorem normpath_ne_empty (path : String) : normpath path ≠ "" := by
  unfold normpath
  simp only
  split
  · decide
  · assumption

theorem place_normpath (cwd : List String) (path : String) :
    place cwd (normpath path) = place cwd path := by
  obtain ⟨pad, hpad, hsplit, habs⟩ := normpath_split path
  rw [place, hsplit, List.foldl_append, hpad.follow, start, habs]
  exact normComps_place cwd path

def Parts (p : List String) : Prop := ∀ c ∈ p, IsPart c

theorem Parts.normal {p : List String} (h : Parts p) : Normal true p :=
  ⟨0, p, by simp, h, fun _ => rfl⟩

theorem Normal.parts {absolute : Bool} (h : Normal absolute cs) (hup : ".." ∉ cs) : Parts cs :=
  fun c hc => (h.mem c hc).resolve_right (fun he => hup (he ▸ hc))

theorem Parts.follow {p : List String} (h : Parts p) (hc : '/' ∉ c.toList) :
    Parts (PosixPath.follow p c) := by
  unfold PosixPath.follow
  split
  · exact h
  · rename_i hdot
    split
    · exact fun d hd => h d (List.dropLast_subset p hd)
    · rename_i hup
      intro d hd
      rcases List.mem_append.mp hd with hd | hd
      · exact h d hd
      · obtain rfl := List.mem_singleton.mp hd
        exact ⟨fun he => hdot (Or.inl he), fun he => hdot (Or.inr he), hup, hc⟩

theorem Parts.foldl {p : List String} (h : Parts p) (hcs : ∀ c ∈ cs, '/' ∉ c.toList) :
    Parts (cs.foldl PosixPath.follow p) := by
  induction cs generalizing p with
  | nil => exact h
  | cons c cs ih =>
    exact ih (h.follow (hcs c List.mem_cons_self)) (fun d hd => hcs d (List.mem_cons_of_mem c hd))

theorem Parts.start {p : List String} (h : Parts p) (path : String) :
    Parts (PosixPath.start p path) := by
  unfold PosixPath.start
  split
  · simp [Parts]
  · exact h

theorem place_parts (h : Parts cwd) (path : String) : Parts (place cwd path) :=
  (h.start path).foldl (fun _ hc => split_noSlash hc)

theorem parts_absolute {p : List String} (h : Parts p) : parts (absolute p) = p := by
  obtain ⟨pad, hpad, hsplit⟩ := split_join_pad h.normal
  have hidle : pad.filter (fun c => decide (c ≠ "" ∧ c ≠ ".")) = [] := by
    rw [List.filter_eq_nil_iff]
    intro c hc
    rcases hpad c hc with rfl | rfl
    · simp
    · simp
  have hkept : p.filter (fun c => decide (c ≠ "" ∧ c ≠ ".")) = p := by
    rw [List.filter_eq_self]
    intro c hc
    exact decide_eq_true ⟨(h c hc).1, (h c hc).2.1⟩
  rw [parts, absolute, split_slash, hsplit, List.filter_cons, List.filter_append, hidle, hkept]
  simp

theorem absolute_injective {p q : List String} (hp : Parts p) (hq : Parts q)
    (h : absolute p = absolute q) : p = q := by
  rw [← parts_absolute hp, h, parts_absolute hq]

theorem commonPrefix_eq_left_iff (p q : List String) : commonPrefix p q = p ↔ p <+: q := by
  induction p generalizing q with
  | nil => simp [commonPrefix]
  | cons a p ih =>
    cases q with
    | nil => simp [commonPrefix]
    | cons b q =>
      by_cases hab : a = b
      · subst hab
        simp [commonPrefix, ih q]
      · simp [commonPrefix, hab]

theorem commonPrefix_below (p q : List String) : commonPrefix p q <+: p := by
  induction p generalizing q with
  | nil => simp [commonPrefix]
  | cons a p ih =>
    cases q with
    | nil => simp [commonPrefix]
    | cons b q =>
      by_cases hab : a = b
      · subst hab
        simp [commonPrefix, ih q]
      · simp [commonPrefix, hab]

/-- The test for a path below another one. -/
theorem commonpath_absolute {p q : List String} (hp : Parts p) (hq : Parts q) :
    commonpath (absolute p) (absolute q) = some (absolute p) ↔ p <+: q := by
  have habs (p : List String) : isabs (absolute p) = true := by simp [isabs, absolute]
  have hcommon : commonpath (absolute p) (absolute q) = some (absolute (commonPrefix p q)) := by
    rw [commonpath, if_pos (by rw [habs, habs]), parts_absolute hp, parts_absolute hq, habs]
    rfl
  have hshared : Parts (commonPrefix p q) :=
    fun c hc => hp c ((commonPrefix_below p q).subset hc)
  rw [hcommon, Option.some.injEq, ← commonPrefix_eq_left_iff]
  constructor
  · exact absolute_injective hshared hp
  · exact congrArg absolute

end Texts

/-- A name an entry of a directory can have. -/
structure Name where
  text : String
  isPart : IsPart text
  noNul : hasNul text = false

mutual

inductive Tree where
  | file (content : List UInt8)
  | dir (entries : Forest)

/-- The entries of a directory; of two with one name the first counts. -/
inductive Forest where
  | nil
  | cons (name : Name) (node : Tree) (rest : Forest)

end

def Forest.get? : Forest → String → Option Tree
  | .nil, _ => none
  | .cons name node rest, c => if name.text = c then some node else rest.get? c

def Tree.find : Tree → List String → Option Tree
  | node, [] => some node
  | .file _, _ :: _ => none
  | .dir entries, c :: cs =>
    match entries.get? c with
    | none => none
    | some node => node.find cs

def Tree.isDir : Tree → Bool
  | .file _ => false
  | .dir _ => true

mutual

/-- No two entries of a directory have one name. -/
def Tree.Distinct : Tree → Prop
  | .file _ => True
  | .dir entries => entries.Distinct

def Forest.Distinct : Forest → Prop
  | .nil => True
  | .cons name node rest => rest.get? name.text = none ∧ node.Distinct ∧ rest.Distinct

end

/-- From an existing place, name by name: each must be there, and be taken in a
directory. -/
def Tree.walk (root : Tree) : List String → List String → Option (List String)
  | p, [] => some p
  | p, c :: cs =>
    if (root.find p).any Tree.isDir ∧ (root.find (follow p c)).isSome then
      root.walk (follow p c) cs
    else none

/-- A file system and the working directory of a process. -/
structure Disk where
  entries : Forest
  cwd : List String
  cwdParts : Parts cwd
  cwdIsDir : ((Tree.dir entries).find cwd).any Tree.isDir = true

def Disk.root (disk : Disk) : Tree := .dir disk.entries

/-- The place a system call finds for a path. -/
def Disk.resolve (disk : Disk) (path : String) : Option (List String) :=
  if path = "" ∨ hasNul path = true then none
  else disk.root.walk (start disk.cwd path) (split path)

def Disk.isdir (disk : Disk) (path : String) : Bool :=
  match disk.resolve path with
  | none => false
  | some p => (disk.root.find p).any Tree.isDir

/-- `open(path, "rb")`, with the place of the file. -/
def Disk.read (disk : Disk) (path : String) : Option (List String × List UInt8) :=
  match disk.resolve path with
  | none => none
  | some p =>
    match disk.root.find p with
    | some (.file content) => some (p, content)
    | _ => none

/-- `os.path.isfile`. -/
def Disk.isfile (disk : Disk) (path : String) : Bool := (disk.read path).isSome

/-- A disk on which every entry can be reached by its name. -/
structure FileSystem extends Disk where
  distinct : entries.Distinct

section Trees
variable {root node : Tree} {p q cs : List String} {c : String}

theorem get?_cons_iff {name : Name} {rest : Forest} (h : (Forest.cons name node rest).Distinct)
    {found : Tree} : (Forest.cons name node rest).get? c = some found ↔
      c = name.text ∧ found = node ∨ rest.get? c = some found := by
  rw [Forest.get?]
  by_cases hc : name.text = c
  · subst hc
    rw [if_pos rfl, h.1]
    constructor
    · intro he
      exact Or.inl ⟨rfl, (Option.some.inj he).symm⟩
    · rintro (⟨-, rfl⟩ | he)
      · rfl
      · cases he
  · rw [if_neg hc]
    constructor
    · exact Or.inr
    · rintro (⟨he, -⟩ | he)
      · exact absurd he.symm hc
      · exact he

theorem get?_distinct {entries : Forest} (h : entries.get? c = some node)
    (distinct : entries.Distinct) : node.Distinct := by
  match entries with
  | .nil => cases h
  | .cons name node' rest =>
    rcases (get?_cons_iff distinct).mp h with ⟨-, rfl⟩ | h
    · exact distinct.2.1
    · exact get?_distinct h distinct.2.2

theorem find_distinct (h : root.find p = some node) (distinct : root.Distinct) : node.Distinct := by
  induction p generalizing root with
  | nil =>
    cases h
    exact distinct
  | cons c p ih =>
    cases root with
    | file _ => cases h
    | dir entries =>
      rw [Tree.find] at h
      cases hget : entries.get? c with
      | none => simp [hget] at h
      | some next =>
        simp only [hget] at h
        exact ih h (get?_distinct hget distinct)

theorem find_append : root.find (p ++ q) = (root.find p).bind (·.find q) := by
  induction p generalizing root with
  | nil => rfl
  | cons c p ih =>
    cases root with
    | file _ => rfl
    | dir entries =>
      simp only [List.cons_append, Tree.find]
      cases entries.get? c with
      | none => rfl
      | some node => exact ih

/-- What lies above something is a directory. -/
theorem find_above (h : root.find (p ++ c :: q) = some node) :
    (root.find p).any Tree.isDir = true := by
  rw [find_append] at h
  cases hp : root.find p with
  | none => simp [hp] at h
  | some above =>
    cases above with
    | file _ => simp [hp, Tree.find] at h
    | dir _ => rfl

theorem walk_place {place : List String} (h : root.walk p cs = some place) :
    place = cs.foldl follow p := by
  induction cs generalizing p with
  | nil => exact (Option.some.inj h).symm
  | cons c cs ih =>
    rw [Tree.walk] at h
    split at h
    · exact ih h
    · cases h

/-- Names on the way to something that is there. -/
theorem walk_parts (hcs : ∀ c ∈ cs, IsPart c) (h : root.find (p ++ cs) = some node) :
    root.walk p cs = some (p ++ cs) := by
  induction cs generalizing p with
  | nil => simp [Tree.walk]
  | cons c cs ih =>
    have hstep : p ++ [c] ++ cs = p ++ c :: cs := by simp
    have hfind : (root.find (p ++ [c])).isSome = true := by
      rw [← hstep, find_append] at h
      cases hf : root.find (p ++ [c]) with
      | none => simp [hf] at h
      | some _ => rfl
    rw [Tree.walk, follow_part (hcs c List.mem_cons_self), if_pos ⟨find_above h, hfind⟩,
      ih (fun d hd => hcs d (List.mem_cons_of_mem c hd)) (hstep ▸ h), hstep]

theorem walk_append {ds : List String} :
    root.walk p (cs ++ ds) = (root.walk p cs).bind (fun q => root.walk q ds) := by
  induction cs generalizing p with
  | nil => rfl
  | cons c cs ih =>
    simp only [List.cons_append, Tree.walk]
    split
    · exact ih
    · rfl

theorem find_dropLast (h : (root.find p).any Tree.isDir = true) :
    (root.find p.dropLast).any Tree.isDir = true := by
  cases hp : p.reverse with
  | nil =>
    obtain rfl : p = [] := by simpa using hp
    exact h
  | cons last rest =>
    obtain rfl : p = rest.reverse ++ [last] := by
      rw [← List.reverse_reverse p, hp, List.reverse_cons]
    rw [List.dropLast_concat]
    cases hf : root.find (rest.reverse ++ [last]) with
    | none => simp [hf] at h
    | some node => exact find_above hf

/-- From a directory, dots lead to directories. -/
theorem walk_dots (hp : (root.find p).any Tree.isDir = true)
    (hcs : ∀ c ∈ cs, c = "" ∨ c = "." ∨ c = "..") :
    ∃ q, root.walk p cs = some q ∧ (root.find q).any Tree.isDir = true := by
  induction cs generalizing p with
  | nil => exact ⟨p, rfl, hp⟩
  | cons c cs ih =>
    have hnext : (root.find (follow p c)).any Tree.isDir = true := by
      rcases hcs c List.mem_cons_self with rfl | rfl | rfl
      · exact hp
      · exact hp
      · rw [follow_up]
        exact find_dropLast hp
    have hthere : (root.find (follow p c)).isSome = true := by
      cases hf : root.find (follow p c) with
      | none => simp [hf] at hnext
      | some _ => rfl
    rw [Tree.walk, if_pos ⟨hp, hthere⟩]
    exact ih hnext (fun d hd => hcs d (List.mem_cons_of_mem c hd))

end Trees

section Disks
variable {disk : Disk} {path : String} {p : List String} {node : Tree}

theorem resolve_place (h : disk.resolve path = some p) : p = place disk.cwd path := by
  unfold Disk.resolve at h
  split at h
  · cases h
  · exact walk_place h

/-- A file that is read is the one at the place of the path. -/
theorem read_some {content : List UInt8} (h : disk.read path = some (p, content)) :
    p = place disk.cwd path ∧ disk.root.find p = some (.file content) := by
  unfold Disk.read at h
  cases hr : disk.resolve path with
  | none => simp [hr] at h
  | some q =>
    simp only [hr] at h
    split at h
    · rename_i found hf
      cases h
      exact ⟨resolve_place hr, hf⟩
    · cases h

theorem mem_intercalate {x : Char} {ls : List (List Char)} :
    x ∈ ['/'].intercalate ls → x = '/' ∨ ∃ l ∈ ls, x ∈ l := by
  induction ls with
  | nil => simp
  | cons l ls ih =>
    cases ls with
    | nil => exact fun hx => Or.inr ⟨l, List.mem_cons_self, by simpa using hx⟩
    | cons l' ls =>
      rw [List.intercalate_cons_cons]
      intro hx
      rcases List.mem_append.mp hx with hx | hx
      · rcases List.mem_append.mp hx with hx | hx
        · exact Or.inr ⟨l, List.mem_cons_self, hx⟩
        · exact Or.inl (List.mem_singleton.mp hx)
      · rcases ih hx with hx | ⟨l'', hl'', hx⟩
        · exact Or.inl hx
        · exact Or.inr ⟨l'', List.mem_cons_of_mem l hl'', hx⟩

theorem mem_intercalate_of_mem {x : Char} {l : List Char} {ls : List (List Char)} (hl : l ∈ ls)
    (hx : x ∈ l) : x ∈ ['/'].intercalate ls := by
  induction ls with
  | nil => cases hl
  | cons l' ls ih =>
    rcases List.mem_cons.mp hl with rfl | hl
    · cases ls with
      | nil => simpa using hx
      | cons l'' ls =>
        rw [List.intercalate_cons_cons]
        exact List.mem_append_left _ (List.mem_append_left _ hx)
    · rw [List.intercalate_cons_of_ne_nil (List.ne_nil_of_mem hl)]
      exact List.mem_append_right _ (ih hl)

theorem hasNul_eq_false {s : String} : hasNul s = false ↔ '\x00' ∉ s.toList := by
  simp [hasNul]

theorem hasNul_append {a b : String} :
    hasNul (a ++ b) = false ↔ hasNul a = false ∧ hasNul b = false := by
  simp [hasNul_eq_false]

theorem hasNul_join {cs : List String} (h : ∀ c ∈ cs, hasNul c = false) :
    hasNul (join cs) = false := by
  rw [hasNul_eq_false, join, String.toList_ofList]
  intro hx
  rcases mem_intercalate hx with hx | ⟨l, hl, hx⟩
  · exact absurd hx (by decide)
  · obtain ⟨c, hc, rfl⟩ := List.mem_map.mp hl
    exact hasNul_eq_false.mp (h c hc) hx

theorem hasNul_split {c : String} (h : hasNul path = false) (hc : c ∈ split path) :
    hasNul c = false := by
  obtain ⟨xs, hxs, rfl⟩ := List.mem_map.mp hc
  rw [hasNul_eq_false, String.toList_ofList]
  intro hx
  have hjoin : ['/'].intercalate (path.toList.splitOn '/') = path.toList :=
    List.intercalate_splitOn '/'
  have hmem := mem_intercalate_of_mem hxs hx
  rw [hjoin] at hmem
  exact hasNul_eq_false.mp h hmem

theorem mem_normComps {absolute : Bool} {cs comps : List String} {c : String}
    (h : c ∈ cs.foldl (normStep absolute) comps) : c ∈ comps ∨ c ∈ cs := by
  induction cs generalizing comps with
  | nil => exact Or.inl h
  | cons d cs ih =>
    rcases ih h with h | h
    · unfold normStep at h
      split at h
      · exact Or.inl h
      · split at h
        · rcases List.mem_append.mp h with h | h
          · exact Or.inl h
          · exact Or.inr (List.mem_singleton.mp h ▸ List.mem_cons_self)
        · exact Or.inl (List.dropLast_subset comps h)
    · exact Or.inr (List.mem_cons_of_mem d h)

theorem hasNul_normpath (h : hasNul path = false) : hasNul (normpath path) = false := by
  have hcomps : hasNul (join (normComps path)) = false := by
    apply hasNul_join
    intro c hc
    rcases mem_normComps hc with hc | hc
    · cases hc
    · exact hasNul_split h hc
  have hslashes (n : Nat) : hasNul (String.ofList (List.replicate n '/')) = false := by
    simp [hasNul_eq_false]
  unfold normpath
  simp only
  split
  · decide
  · exact hasNul_append.mpr ⟨hslashes _, hcomps⟩

/-- A normalised path finds whatever there is at its place. -/
theorem resolve_normpath (hnul : hasNul path = false)
    (h : disk.root.find (place disk.cwd path) = some node) :
    disk.resolve (normpath path) = some (place disk.cwd path) := by
  obtain ⟨pad, hpad, hsplit, habs⟩ := normpath_split path
  obtain ⟨k, names, hcomps, hnames, -⟩ := normComps_normal path
  have hstart : (disk.root.find (start disk.cwd (normpath path))).any Tree.isDir = true := by
    unfold start
    split
    · rfl
    · exact disk.cwdIsDir
  have hne := normpath_ne_empty path
  have hdots : ∀ c ∈ pad ++ List.replicate k "..", c = "" ∨ c = "." ∨ c = ".." := by
    intro c hc
    rcases List.mem_append.mp hc with hc | hc
    · rcases hpad c hc with hc | hc
      · exact Or.inl hc
      · exact Or.inr (Or.inl hc)
    · exact Or.inr (Or.inr (List.eq_of_mem_replicate hc))
  obtain ⟨q, hq, -⟩ := walk_dots hstart hdots
  have hplace : place disk.cwd path = q ++ names := by
    rw [← place_normpath, place, hsplit, hcomps, ← List.append_assoc, List.foldl_append,
      ← walk_place hq, foldl_follow_parts hnames]
  unfold Disk.resolve
  rw [if_neg (by simp [hne, hasNul_normpath hnul]), hsplit, hcomps, ← List.append_assoc,
    walk_append, hq, hplace]
  exact walk_parts hnames (hplace ▸ h)

theorem read_normpath {content : List UInt8} (hnul : hasNul path = false)
    (h : disk.root.find (place disk.cwd path) = some (.file content)) :
    disk.read (normpath path) = some (place disk.cwd path, content) := by
  simp only [Disk.read, resolve_normpath hnul h, h]

end Disks

end PosixPath
