import DelegateProtocol.Lib.PosixPath
import Mathlib.Data.List.Infix

/-!
# Extracting archives

An archive is the list of the files written to it, each under a name. Extraction
puts every file at the components of its name that are neither empty nor dots,
and makes the directories above it. What has been extracted is known place by
place, seen from the directory it was extracted into.
-/

namespace ZipArchive

open PosixPath

inductive Kind where
  | dir
  | file (content : List UInt8)
  deriving DecidableEq

abbrev Contents := List String → Option Kind

/-- The directory itself, just made. -/
def fresh : Contents := fun p => if p = [] then some .dir else none

/-- The name of an entry: normalised, without leading separators. -/
def writtenName (arcname : String) : String :=
  String.ofList ((normpath arcname).toList.dropWhile (fun c => c = '/'))

/-- Where an entry of this name is extracted to. -/
def memberPlace (name : String) : List String :=
  (split name).filter (fun c => decide (c ≠ "" ∧ c ≠ "." ∧ c ≠ ".."))

def isFile : Option Kind → Bool
  | some (.file _) => true
  | _ => false

/-- A file stands where a directory is needed. -/
def blocked (c : Contents) (p : List String) : Bool :=
  p.inits.any (fun q => decide (q ≠ p) && isFile (c q))

def putFile (c : Contents) (p : List String) (content : List UInt8) : Contents :=
  fun q => if q = p then some (.file content) else if q <+: p then some .dir else c q

/-- One entry; a file takes the place of a file only. -/
def extractMember (c : Contents) (entry : String × List UInt8) : Option Contents :=
  let p := memberPlace entry.1
  if c p = some .dir ∨ blocked c p = true then none else some (putFile c p entry.2)

/-- `zf.extractall(dest_dir)`. -/
def extractAll (c : Contents) : List (String × List UInt8) → Option Contents
  | [] => some c
  | entry :: entries =>
    match extractMember c entry with
    | none => none
    | some c => extractAll c entries

/-- The files, and the directories above them. -/
def contentsOf (files : List (List String × List UInt8)) : Contents := fun q =>
  match files.find? (fun f => decide (f.1 = q)) with
  | some f => some (.file f.2)
  | none => if q = [] ∨ ∃ f ∈ files, q <+: f.1 then some .dir else none

/-- No file lies below another, and no place has two contents. -/
def Compatible (files : List (List String × List UInt8)) : Prop :=
  ∀ f ∈ files, ∀ g ∈ files, f.1 <+: g.1 → f = g

section Extraction
variable {files rest : List (List String × List UInt8)} {f : List String × List UInt8}
variable {p q : List String} {content : List UInt8}

theorem memberPlace_slash (name : String) : memberPlace ("/" ++ name) = memberPlace name := by
  rw [memberPlace, split_slash]
  rfl

theorem memberPlace_strip (cs : List Char) :
    memberPlace (String.ofList (cs.dropWhile (fun c => c = '/'))) = memberPlace (String.ofList cs) := by
  induction cs with
  | nil => rfl
  | cons c cs ih =>
    by_cases hc : c = '/'
    · have htext : String.ofList (c :: cs) = "/" ++ String.ofList cs := by
        rw [← String.toList_inj]
        simp [hc]
      rw [htext, memberPlace_slash, ← ih]
      simp [hc]
    · simp [hc]

/-- An entry is extracted to the names of its normalised path; steps up are
dropped. -/
theorem memberPlace_writtenName (arcname : String) :
    memberPlace (writtenName arcname) = (normComps arcname).filter (fun c => c ≠ "..") := by
  obtain ⟨pad, hpad, hsplit, -⟩ := normpath_split arcname
  have hidle : pad.filter (fun c => decide (c ≠ "" ∧ c ≠ "." ∧ c ≠ "..")) = [] := by
    apply List.filter_eq_nil_iff.mpr
    intro c hc
    rcases hpad c hc with rfl | rfl <;> decide
  rw [writtenName, memberPlace_strip, String.ofList_toList, memberPlace, hsplit, List.filter_append,
    hidle, List.nil_append]
  apply List.filter_congr
  intro c hc
  rcases (normComps_normal arcname).mem c hc with hpart | rfl
  · simp [hpart.1, hpart.2.1]
  · decide

theorem foldl_normStep_parts {absolute : Bool} (h : Parts p) (comps : List String) :
    p.foldl (normStep absolute) comps = comps ++ p := by
  induction p generalizing comps with
  | nil => simp
  | cons c p ih =>
    have hc := h c List.mem_cons_self
    have hstep : normStep absolute comps c = comps ++ [c] := by
      simp [normStep, hc.1, hc.2.1, hc.2.2.1]
    rw [List.foldl_cons, hstep, ih (fun d hd => h d (List.mem_cons_of_mem c hd)), List.append_assoc]
    rfl

theorem normComps_join (h : Parts p) : normComps (join p) = p := by
  obtain ⟨pad, hpad, hsplit⟩ := split_join_pad h.normal
  have hidle : pad.foldl (normStep false) [] = [] := by
    clear hsplit
    induction pad with
    | nil => rfl
    | cons c pad ih =>
      have hstep : normStep false [] c = [] := by simp [normStep, hpad c List.mem_cons_self]
      rw [List.foldl_cons, hstep]
      exact ih (fun d hd => hpad d (List.mem_cons_of_mem c hd))
  rw [normComps, isabs_join h.normal, hsplit, List.foldl_append, hidle, foldl_normStep_parts h,
    List.nil_append]

theorem filter_ups (h : Parts p) : p.filter (fun c => c ≠ "..") = p := by
  apply List.filter_eq_self.mpr
  intro c hc
  exact decide_eq_true (h c hc).2.2.1

/-- Names joined from components lead back to them. -/
theorem memberPlace_join (h : Parts p) : memberPlace (writtenName (join p)) = p := by
  rw [memberPlace_writtenName, normComps_join h, filter_ups h]

theorem contentsOf_nil : contentsOf [] = fresh := by
  funext q
  simp [contentsOf, fresh]

theorem contentsOf_file (compatible : Compatible files) (hf : f ∈ files) :
    contentsOf files f.1 = some (.file f.2) := by
  unfold contentsOf
  cases h : files.find? (fun g => decide (g.1 = f.1)) with
  | none =>
    have hnone := List.find?_eq_none.mp h f hf
    simp at hnone
  | some g =>
    have hg := List.mem_of_find?_eq_some h
    have hp : g.1 = f.1 := by simpa using List.find?_some h
    rw [compatible g hg f hf (hp ▸ List.prefix_refl _)]

theorem contentsOf_file_iff (compatible : Compatible files) :
    contentsOf files q = some (.file content) ↔ (q, content) ∈ files := by
  constructor
  · intro h
    unfold contentsOf at h
    cases hq : files.find? (fun f => decide (f.1 = q)) with
    | none =>
      simp only [hq] at h
      split at h <;> cases h
    | some g =>
      simp only [hq, Option.some.injEq, Kind.file.injEq] at h
      have hg : g.1 = q := by simpa using List.find?_some hq
      rw [← hg, ← h]
      exact List.mem_of_find?_eq_some hq
  · exact fun h => contentsOf_file compatible h

theorem contentsOf_dir_iff : contentsOf files q = some .dir ↔
    (∀ f ∈ files, f.1 ≠ q) ∧ (q = [] ∨ ∃ f ∈ files, q <+: f.1) := by
  unfold contentsOf
  cases hq : files.find? (fun f => decide (f.1 = q)) with
  | none =>
    have hno : ∀ f ∈ files, f.1 ≠ q := by
      intro f hf
      simpa using List.find?_eq_none.mp hq f hf
    simp only
    by_cases habove : q = [] ∨ ∃ f ∈ files, q <+: f.1
    · exact iff_of_true (if_pos habove) ⟨fun f hf => hno f hf, habove⟩
    · rw [if_neg habove]
      exact iff_of_false (by simp) (fun h => habove h.2)
  | some g =>
    have hg : g.1 = q := by simpa using List.find?_some hq
    exact iff_of_false (by simp) (fun h => h.1 g (List.mem_of_find?_eq_some hq) hg)

theorem isFile_iff {found : Option Kind} : isFile found = true ↔ ∃ c, found = some (.file c) := by
  cases found with
  | none => simp [isFile]
  | some kind => cases kind <;> simp [isFile]

theorem Compatible.mono {more : List (List String × List UInt8)} (h : Compatible more)
    (part : files ⊆ more) : Compatible files :=
  fun f hf g hg => h f (part hf) g (part hg)

theorem putFile_contentsOf (compatible : Compatible (files ++ [(p, content)])) :
    putFile (contentsOf files) p content = contentsOf (files ++ [(p, content)]) := by
  have hlast : (p, content) ∈ files ++ [(p, content)] := by simp
  funext q
  by_cases hq : q = p
  · have hfile := contentsOf_file compatible hlast
    simp only at hfile
    rw [hq, hfile, putFile, if_pos rfl]
  · have hnew : decide (p = q) = false := decide_eq_false (Ne.symm hq)
    simp only [putFile, if_neg hq, contentsOf, List.find?_append, List.find?_cons, hnew,
      List.find?_nil, Option.or_none]
    cases hfind : files.find? (fun g => decide (g.1 = q)) with
    | some g =>
      have hg : g.1 = q := by simpa using List.find?_some hfind
      have hbeside : ¬ q <+: p := by
        intro hpre
        have hsame := compatible g (List.mem_append_left _ (List.mem_of_find?_eq_some hfind)) _
          hlast (hg.symm ▸ hpre)
        exact hq (hg.symm.trans (congrArg Prod.fst hsame))
      simp only [if_neg hbeside]
    | none =>
      by_cases hpre : q <+: p
      · have habove : q = [] ∨ ∃ f ∈ files ++ [(p, content)], q <+: f.1 :=
          Or.inr ⟨_, hlast, hpre⟩
        simp only [if_pos hpre, if_pos habove]
      · have hiff : (∃ f ∈ files ++ [(p, content)], q <+: f.1) ↔ ∃ f ∈ files, q <+: f.1 := by
          simp [List.mem_append, or_and_right, exists_or, hpre]
        simp only [if_neg hpre, hiff]

/-- Another compatible file can always be extracted. -/
theorem extractMember_contentsOf (compatible : Compatible (files ++ [(p, content)])) (hne : p ≠ [])
    {name : String} (hname : memberPlace name = p) :
    extractMember (contentsOf files) (name, content) =
      some (contentsOf (files ++ [(p, content)])) := by
  have hlast : (p, content) ∈ files ++ [(p, content)] := by simp
  have old {f : List String × List UInt8} (hf : f ∈ files) : f ∈ files ++ [(p, content)] :=
    List.mem_append_left _ hf
  have noDir : contentsOf files p ≠ some .dir := by
    intro h
    obtain ⟨hno, hnil | ⟨f, hf, hpre⟩⟩ := contentsOf_dir_iff.mp h
    · exact hne hnil
    · exact hno f hf (congrArg Prod.fst (compatible _ hlast f (old hf) hpre)).symm
  have unblocked : blocked (contentsOf files) p = false := by
    simp only [blocked, List.any_eq_false, List.mem_inits, Bool.and_eq_true, decide_eq_true_eq]
    rintro q hpre ⟨hq, hfile⟩
    obtain ⟨c, hc⟩ := isFile_iff.mp hfile
    have hf := (contentsOf_file_iff (compatible.mono (List.subset_append_left _ _))).mp hc
    exact hq (congrArg Prod.fst (compatible _ (old hf) _ hlast hpre))
  have free : ¬ (contentsOf files p = some .dir ∨ blocked (contentsOf files) p = true) := by
    rintro (h | h)
    · exact noDir h
    · rw [unblocked] at h
      cases h
  simp only [extractMember, hname, if_neg free, putFile_contentsOf compatible]

/-- Compatible files are extracted as what they are. -/
theorem extractAll_contentsOf {entries : List (String × List UInt8)}
    (compatible : Compatible (files ++ rest)) (hne : ∀ f ∈ rest, f.1 ≠ [])
    (hnames : List.Forall₂ (fun entry f => memberPlace entry.1 = f.1 ∧ entry.2 = f.2) entries rest) :
    extractAll (contentsOf files) entries = some (contentsOf (files ++ rest)) := by
  induction hnames generalizing files with
  | nil => rw [extractAll, List.append_nil]
  | @cons entry f entries rest h _ ih =>
    obtain ⟨name, content⟩ := entry
    obtain ⟨p, content'⟩ := f
    obtain ⟨hname, rfl⟩ := h
    have hsplit : files ++ (p, content) :: rest = (files ++ [(p, content)]) ++ rest := by simp
    rw [hsplit] at compatible ⊢
    have hfirst := extractMember_contentsOf (compatible.mono (List.subset_append_left _ _))
      (hne _ List.mem_cons_self) hname
    simp only [extractAll, hfirst]
    exact ih compatible (fun g hg => hne g (List.mem_cons_of_mem _ hg))

end Extraction

end ZipArchive
