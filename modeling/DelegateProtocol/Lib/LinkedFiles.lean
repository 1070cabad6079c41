import DelegateProtocol.Lib.PosixPath
import Mathlib.Tactic.Common

/-!
# Files behind symbolic links

A disk whose directories may also hold symbolic links and special files. The
kernel follows a limited number of links on the way of a path; `realpath` follows
them all, but none that it is still following. Where the kernel arrives,
`realpath` does.
-/

namespace LinkedFiles

open PosixPath

mutual

inductive Node where
  | file (content : List UInt8)
  | link (target : String)
  | special
  | dir (entries : Entries)

inductive Entries where
  | nil
  | cons (name : Name) (node : Node) (rest : Entries)

end

def Entries.get? : Entries → String → Option Node
  | .nil, _ => none
  | .cons name node rest, c => if name.text = c then some node else rest.get? c

/-- What is found at a place, links not followed. -/
def Node.find : Node → List String → Option Node
  | node, [] => some node
  | .dir entries, c :: cs =>
    match entries.get? c with
    | none => none
    | some node => node.find cs
  | _, _ :: _ => none

def Node.isDir : Node → Bool
  | .dir _ => true
  | _ => false

mutual

/-- No two entries of a directory have one name. -/
def Node.Distinct : Node → Prop
  | .dir entries => entries.Distinct
  | _ => True

def Entries.Distinct : Entries → Prop
  | .nil => True
  | .cons name node rest => rest.get? name.text = none ∧ node.Distinct ∧ rest.Distinct

end

/-- The links the kernel follows on the way of one path. -/
def maxLinks : Nat := 40

/-- From a place, component by component, with the links that may still be
followed; `next` goes on behind a link. -/
def Node.walkWith (root : Node) (links : Nat)
    (next : List String → List String → Option (List String × Nat)) :
    List String → List String → Option (List String × Nat)
  | p, [] => some (p, links)
  | p, c :: cs =>
    if (root.find p).any Node.isDir = false then none
    else if c = "" ∨ c = "." then root.walkWith links next p cs
    else if c = ".." then root.walkWith links next p.dropLast cs
    else
      match root.find (p ++ [c]) with
      | none => none
      | some (.link target) =>
        if target = "" then none else next (start p target) (split target ++ cs)
      | some _ => root.walkWith links next (p ++ [c]) cs

def Node.walk (root : Node) : Nat → List String → List String → Option (List String × Nat)
  | 0 => root.walkWith 0 (fun _ _ => none)
  | links + 1 => root.walkWith (links + 1) (root.walk links)

/-- The links met so far, each with where it leads, or none while it is being
followed. A link is known by its place. -/
abbrev Seen := List (List String × Option (List String))

def Seen.get? (seen : Seen) (l : List String) : Option (Option (List String)) :=
  (seen.find? (fun e => decide (e.1 = l))).map Prod.snd

structure Real where
  place : List String
  ok : Bool
  seen : Seen

/-- `join(path, rest)`, which an absolute rest takes over. -/
def rejoin (p : List String) : List String → List String
  | "" :: c :: cs => (c :: cs).foldl follow []
  | cs => cs.foldl follow p

/-- The loop of `_joinrealpath`; `next` is the call for the target of a link. -/
def Node.realWith (root : Node) (next : Seen → List String → List String → Real) :
    Seen → List String → List String → Real
  | seen, p, [] => ⟨p, true, seen⟩
  | seen, p, c :: cs =>
    if c = "" ∨ c = "." then root.realWith next seen p cs
    else if c = ".." then root.realWith next seen p.dropLast cs
    else
      match root.find (p ++ [c]) with
      | some (.link target) =>
        match seen.get? (p ++ [c]) with
        | some (some q) => root.realWith next seen q cs
        | some none => ⟨rejoin (p ++ [c]) cs, false, seen⟩
        | none =>
          let r := next ((p ++ [c], none) :: seen) (start p target) (split target)
          if r.ok = true then root.realWith next ((p ++ [c], some r.place) :: r.seen) r.place cs
          else ⟨rejoin r.place cs, false, r.seen⟩
      | _ => root.realWith next seen (p ++ [c]) cs

/-- A call follows one more link than the call it is made from, so there are
never more calls at once than links. -/
def Node.real (root : Node) : Nat → Seen → List String → List String → Real
  | 0 => fun seen p _ => ⟨p, false, seen⟩
  | calls + 1 => root.realWith (root.real calls)

mutual

/-- The places of the links. -/
def Node.links : Node → List (List String)
  | .link _ => [[]]
  | .dir entries => entries.links
  | _ => []

def Entries.links : Entries → List (List String)
  | .nil => []
  | .cons name node rest => node.links.map (fun p => name.text :: p) ++ rest.links

end

structure LinkedDisk where
  entries : Entries
  distinct : entries.Distinct
  cwd : List String
  cwdParts : Parts cwd
  cwdIsDir : ((Node.dir entries).find cwd).any Node.isDir = true

section Calls
variable (disk : LinkedDisk)

def LinkedDisk.root : Node := .dir disk.entries

/-- The place a system call finds for a path, and the links it had left. -/
def LinkedDisk.lookup (path : String) : Option (List String × Nat) :=
  if path = "" ∨ hasNul path = true then none
  else disk.root.walk maxLinks (start disk.cwd path) (split path)

def LinkedDisk.resolve (path : String) : Option (List String) := (disk.lookup path).map Prod.fst

def LinkedDisk.isdir (path : String) : Bool :=
  match disk.resolve path with
  | none => false
  | some p => (disk.root.find p).any Node.isDir

/-- `open(path, "rb")` of a regular file, with its place. -/
def LinkedDisk.read (path : String) : Option (List String × List UInt8) :=
  match disk.resolve path with
  | none => none
  | some p =>
    match disk.root.find p with
    | some (.file content) => some (p, content)
    | _ => none

def LinkedDisk.isfile (path : String) : Bool := (disk.read path).isSome

def LinkedDisk.realplace (path : String) : List String :=
  (disk.root.real (disk.root.links.length + 1) [] (start disk.cwd path) (split path)).place

/-- A NUL in the text is a ValueError. -/
def LinkedDisk.realpath (path : String) : Option String :=
  if hasNul path then none else some (absolute (disk.realplace path))

end Calls

def IsDots (c : String) : Prop := c = "" ∨ c = "." ∨ c = ".."

/-- Components lead from one place to another through so many links. -/
inductive Leads (root : Node) : List String → List String → List String → Nat → Prop
  | done {p : List String} : Leads root p [] p 0
  | stay {p cs q : List String} {c : String} {k : Nat} : c = "" ∨ c = "." →
      Leads root p cs q k → Leads root p (c :: cs) q k
  | up {p cs q : List String} {k : Nat} : Leads root p.dropLast cs q k →
      Leads root p (".." :: cs) q k
  | down {p cs q : List String} {c : String} {k : Nat} {node : Node} : ¬ IsDots c →
      root.find (p ++ [c]) = some node → (∀ target, node ≠ .link target) →
      Leads root (p ++ [c]) cs q k → Leads root p (c :: cs) q k
  | link {p cs q : List String} {c target : String} {k : Nat} : ¬ IsDots c →
      root.find (p ++ [c]) = some (.link target) →
      Leads root (start p target) (split target ++ cs) q k → Leads root p (c :: cs) q (k + 1)

section Leading
variable {root : Node} {p q cs ds : List String} {c : String} {k n : Nat}

theorem part_notDots (hc : IsPart c) : ¬ IsDots c := by
  rintro (he | he | he)
  · exact hc.1 he
  · exact hc.2.1 he
  · exact hc.2.2.1 he

theorem isDots_iff : IsDots c ↔ (c = "" ∨ c = ".") ∨ c = ".." := or_assoc.symm

theorem not_dots (h : ¬ (c = "" ∨ c = ".")) (hup : c ≠ "..") : ¬ IsDots c :=
  fun hdots => (isDots_iff.mp hdots).elim h hup

theorem dots_stay (h : c = "" ∨ c = ".") : IsDots c := isDots_iff.mpr (Or.inl h)

theorem dots_up : IsDots ".." := isDots_iff.mpr (Or.inr rfl)

theorem walkWith_leads {next : List String → List String → Option (List String × Nat)} {m : Nat}
    (hnext : ∀ p cs q m, next p cs = some (q, m) → ∃ k, k + 1 + m = n ∧ Leads root p cs q k)
    (h : root.walkWith n next p cs = some (q, m)) : ∃ k, k + m = n ∧ Leads root p cs q k := by
  induction cs generalizing p with
  | nil =>
    cases h
    exact ⟨0, Nat.zero_add n, .done⟩
  | cons c cs ih =>
    rw [Node.walkWith] at h
    split at h
    · cases h
    · split at h
      · rename_i hdot
        obtain ⟨k, hk, hl⟩ := ih h
        exact ⟨k, hk, .stay hdot hl⟩
      · rename_i hdot
        split at h
        · rename_i hup
          obtain ⟨k, hk, hl⟩ := ih h
          exact ⟨k, hk, hup ▸ .up hl⟩
        · rename_i hup
          split at h
          · cases h
          · rename_i target hfind
            split at h
            · cases h
            · obtain ⟨k, hk, hl⟩ := hnext _ _ _ _ h
              exact ⟨k + 1, hk, .link (not_dots hdot hup) hfind hl⟩
          · rename_i node hnode hfind
            obtain ⟨k, hk, hl⟩ := ih h
            refine ⟨k, hk, .down (not_dots hdot hup) hfind ?_ hl⟩
            rintro target rfl
            exact hnode target rfl

/-- The kernel goes where the components lead. -/
theorem walk_leads {m : Nat} (h : root.walk n p cs = some (q, m)) :
    ∃ k, k + m = n ∧ Leads root p cs q k := by
  induction n generalizing p cs q m with
  | zero => exact walkWith_leads (fun _ _ _ _ hn => by cases hn) h
  | succ n ih =>
    refine walkWith_leads (fun _ _ _ _ hn => ?_) h
    obtain ⟨k, hk, hl⟩ := ih hn
    exact ⟨k, by omega, hl⟩

theorem find_append : root.find (p ++ q) = (root.find p).bind (·.find q) := by
  induction p generalizing root with
  | nil => rfl
  | cons c p ih =>
    cases root with
    | dir entries =>
      simp only [List.cons_append, Node.find]
      cases entries.get? c with
      | none => rfl
      | some node => exact ih
    | file _ => rfl
    | link _ => rfl
    | special => rfl

/-- What lies above something is a directory. -/
theorem find_above {node : Node} (h : root.find (p ++ c :: q) = some node) :
    (root.find p).any Node.isDir = true := by
  rw [find_append] at h
  cases hp : root.find p with
  | none => simp [hp] at h
  | some above =>
    cases above with
    | dir _ => rfl
    | file _ => simp [hp, Node.find] at h
    | link _ => simp [hp, Node.find] at h
    | special => simp [hp, Node.find] at h

theorem isDir_iff {found : Option Node} :
    found.any Node.isDir = true ↔ ∃ entries, found = some (.dir entries) := by
  cases found with
  | none => simp
  | some node => cases node <;> simp [Node.isDir]

theorem isDir_above (h : (root.find (p ++ q)).any Node.isDir = true) :
    (root.find p).any Node.isDir = true := by
  cases q with
  | nil => simpa using h
  | cons c q =>
    obtain ⟨entries, hfind⟩ := isDir_iff.mp h
    exact find_above hfind

theorem get?_cons_iff {name : Name} {node : Node} {rest : Entries}
    (h : (Entries.cons name node rest).Distinct) {found : Node} :
    (Entries.cons name node rest).get? c = some found ↔
      c = name.text ∧ found = node ∨ rest.get? c = some found := by
  rw [Entries.get?]
  by_cases hc : name.text = c
  · subst hc
    rw [if_pos rfl, h.1]
    constructor
    · intro he
      exact Or.inl ⟨rfl, (Option.some.inj he).symm⟩
    · rintro (⟨-, rfl⟩ | he)
      · rfl
      · cases he
  · rw [if_neg hc]
    constructor
    · exact Or.inr
    · rintro (⟨he, -⟩ | he)
      · exact absurd he.symm hc
      · exact he

theorem get?_distinct {entries : Entries} {node : Node} (h : entries.get? c = some node)
    (distinct : entries.Distinct) : node.Distinct := by
  match entries with
  | .nil => cases h
  | .cons name node' rest =>
    rcases (get?_cons_iff distinct).mp h with ⟨-, rfl⟩ | h
    · exact distinct.2.1
    · exact get?_distinct h distinct.2.2

theorem find_distinct {node : Node} (h : root.find p = some node) (distinct : root.Distinct) :
    node.Distinct := by
  induction p generalizing root with
  | nil =>
    cases h
    exact distinct
  | cons c p ih =>
    cases root with
    | dir entries =>
      rw [Node.find] at h
      cases hget : entries.get? c with
      | none => simp [hget] at h
      | some next =>
        simp only [hget] at h
        exact ih h (get?_distinct hget distinct)
    | file _ => cases h
    | link _ => cases h
    | special => cases h

/-- The names on the way to a node are names of entries. -/
theorem get?_name {entries : Entries} {node : Node} (h : entries.get? c = some node) :
    IsPart c ∧ hasNul c = false := by
  match entries with
  | .nil => cases h
  | .cons name node' rest =>
    rw [Entries.get?] at h
    split at h
    · rename_i hname
      exact hname ▸ ⟨name.isPart, name.noNul⟩
    · exact get?_name h

theorem find_names {node : Node} (h : root.find p = some node) :
    ∀ c ∈ p, IsPart c ∧ hasNul c = false := by
  induction p generalizing root with
  | nil => simp
  | cons c p ih =>
    cases root with
    | dir entries =>
      rw [Node.find] at h
      cases hget : entries.get? c with
      | none => simp [hget] at h
      | some next =>
        simp only [hget] at h
        intro d hd
        rcases List.mem_cons.mp hd with rfl | hd
        · exact get?_name hget
        · exact ih h d hd
    | file _ => cases h
    | link _ => cases h
    | special => cases h

theorem walkWith_append {next : List String → List String → Option (List String × Nat)}
    (hwalk : root.walk n = root.walkWith n next)
    (hnext : ∀ p cs ds, next p (cs ++ ds) = (next p cs).bind (fun r => root.walk r.2 r.1 ds)) :
    root.walkWith n next p (cs ++ ds) =
      (root.walkWith n next p cs).bind (fun r => root.walk r.2 r.1 ds) := by
  induction cs generalizing p with
  | nil => rw [Node.walkWith, Option.bind_some, hwalk, List.nil_append]
  | cons c cs ih =>
    rw [List.cons_append, Node.walkWith, Node.walkWith]
    split
    · rfl
    · split
      · exact ih
      · split
        · exact ih
        · split
          · rfl
          · split
            · rfl
            · rw [← List.append_assoc, hnext]
          · exact ih

/-- The kernel takes a path in parts, with the links it has left. -/
theorem walk_append :
    root.walk n p (cs ++ ds) = (root.walk n p cs).bind (fun r => root.walk r.2 r.1 ds) := by
  induction n generalizing p cs ds with
  | zero => exact walkWith_append rfl (fun _ _ _ => rfl)
  | succ n ih => exact walkWith_append rfl (fun _ _ _ => ih)

@[simp] theorem walk_nil : root.walk n p [] = some (p, n) := by
  cases n <;> rfl

theorem walk_stay (hc : c = "" ∨ c = ".") : root.walk n p (c :: cs) =
    if (root.find p).any Node.isDir = false then none else root.walk n p cs := by
  cases n <;> simp only [Node.walk, Node.walkWith, if_pos hc]

theorem walk_idle {pad : List String} (hpad : Idle pad) (hp : (root.find p).any Node.isDir = true) :
    root.walk n p (pad ++ cs) = root.walk n p cs := by
  induction pad with
  | nil => rfl
  | cons c pad ih =>
    rw [List.cons_append, walk_stay (hpad c List.mem_cons_self), if_neg (by simp [hp])]
    exact ih (fun d hd => hpad d (List.mem_cons_of_mem c hd))

/-- Where a path leads, it leads without what leads nowhere. -/
theorem walk_filter {r : List String × Nat} (h : root.walk n p cs = some r) :
    root.walk n p (cs.filter (fun c => decide (c ≠ "" ∧ c ≠ "."))) = some r := by
  induction cs generalizing n p with
  | nil => exact h
  | cons c cs ih =>
    by_cases hdot : c = "" ∨ c = "."
    · have hidle : decide (c ≠ "" ∧ c ≠ ".") = false :=
        decide_eq_false (fun h => hdot.elim h.1 h.2)
      rw [walk_stay hdot] at h
      split at h
      · cases h
      · rw [List.filter_cons_of_neg (by rw [hidle]; decide)]
        exact ih h
    · have hkept : c ≠ "" ∧ c ≠ "." := not_or.mp hdot
      rw [List.filter_cons_of_pos (by simpa using hkept)]
      have hcons (ds : List String) : root.walk n p (c :: ds) =
          (root.walk n p [c]).bind (fun r => root.walk r.2 r.1 ds) :=
        @walk_append root p [c] ds n
      rw [hcons] at h ⊢
      obtain ⟨next, hnext, hrest⟩ := Option.bind_eq_some_iff.mp h
      rw [hnext]
      exact ih hrest

theorem walk_up (hp : (root.find p).any Node.isDir = true) :
    root.walk n p (".." :: cs) = root.walk n p.dropLast cs := by
  cases n <;> simp [Node.walk, Node.walkWith, hp]

theorem walk_notDir (hp : (root.find p).any Node.isDir = false) :
    root.walk n p (c :: cs) = none := by
  cases n <;> simp only [Node.walk, Node.walkWith, if_pos hp]

theorem walk_step {node : Node} (hc : ¬ IsDots c) (h : root.find (p ++ [c]) = some node)
    (hlink : ∀ target, node ≠ .link target) :
    root.walk n p (c :: cs) = root.walk n (p ++ [c]) cs := by
  have hp : (root.find p).any Node.isDir = true := find_above h
  have hdot : ¬ (c = "" ∨ c = ".") := fun he => hc (dots_stay he)
  have hup : c ≠ ".." := fun he => hc (he ▸ dots_up)
  cases node with
  | link target => exact absurd rfl (hlink target)
  | file _ => cases n <;> simp [Node.walk, Node.walkWith, hp, hdot, hup, h]
  | special => cases n <;> simp [Node.walk, Node.walkWith, hp, hdot, hup, h]
  | dir _ => cases n <;> simp [Node.walk, Node.walkWith, hp, hdot, hup, h]

theorem walk_missing (hc : ¬ IsDots c) (h : root.find (p ++ [c]) = none) :
    root.walk n p (c :: cs) = none := by
  have hdot : ¬ (c = "" ∨ c = ".") := fun he => hc (dots_stay he)
  have hup : c ≠ ".." := fun he => hc (he ▸ dots_up)
  cases n <;> simp [Node.walk, Node.walkWith, hdot, hup, h]

/-- Directories on the way are walked through. -/
theorem walk_dirs (hds : Parts ds) (h : (root.find (p ++ ds)).any Node.isDir = true) :
    root.walk n p (ds ++ cs) = root.walk n (p ++ ds) cs := by
  induction ds generalizing p with
  | nil => simp
  | cons d ds ih =>
    have hstep : p ++ [d] ++ ds = p ++ d :: ds := by simp
    rw [← hstep] at h ⊢
    obtain ⟨entries, hchild⟩ := isDir_iff.mp (isDir_above h)
    rw [List.cons_append, walk_step (part_notDots (hds d List.mem_cons_self)) hchild (by simp)]
    exact ih (fun e he => hds e (List.mem_cons_of_mem d he)) h

/-- A name that leads somewhere is the name of an entry. -/
theorem walk_entry {r : List String × Nat} (hc : IsPart c) (h : root.walk n p [c] = some r) :
    ∃ node, root.find (p ++ [c]) = some node := by
  cases hfind : root.find (p ++ [c]) with
  | some node => exact ⟨node, rfl⟩
  | none =>
    rw [walk_missing (part_notDots hc) hfind] at h
    cases h

theorem Leads.split (h : Leads root p (cs ++ ds) q k) :
    ∃ r i j, Leads root p cs r i ∧ Leads root r ds q j ∧ k = i + j := by
  generalize hall : cs ++ ds = all at h
  induction h generalizing cs with
  | done =>
    obtain ⟨rfl, rfl⟩ := List.append_eq_nil_iff.mp hall
    exact ⟨_, 0, 0, .done, .done, rfl⟩
  | @stay p as q c k hdot hl ih =>
    cases cs with
    | nil =>
      subst hall
      exact ⟨p, 0, k, .done, .stay hdot hl, by omega⟩
    | cons d cs =>
      cases hall
      obtain ⟨r, i, j, hi, hj, hk⟩ := ih rfl
      exact ⟨r, i, j, .stay hdot hi, hj, hk⟩
  | @up p as q k hl ih =>
    cases cs with
    | nil =>
      subst hall
      exact ⟨p, 0, k, .done, .up hl, by omega⟩
    | cons d cs =>
      cases hall
      obtain ⟨r, i, j, hi, hj, hk⟩ := ih rfl
      exact ⟨r, i, j, .up hi, hj, hk⟩
  | @down p as q c k node hdots hfind hlink hl ih =>
    cases cs with
    | nil =>
      subst hall
      exact ⟨p, 0, k, .done, .down hdots hfind hlink hl, by omega⟩
    | cons d cs =>
      cases hall
      obtain ⟨r, i, j, hi, hj, hk⟩ := ih rfl
      exact ⟨r, i, j, .down hdots hfind hlink hi, hj, hk⟩
  | @link p as q c target k hdots hfind hl ih =>
    cases cs with
    | nil =>
      subst hall
      exact ⟨p, 0, k + 1, .done, .link hdots hfind hl, by omega⟩
    | cons d cs =>
      cases hall
      obtain ⟨r, i, j, hi, hj, hk⟩ := @ih (PosixPath.split target ++ cs) (by simp)
      exact ⟨r, i + 1, j, .link hdots hfind hi, hj, by omega⟩

/-- Components lead to one place only. -/
theorem Leads.unique {q' : List String} {k' : Nat} (h : Leads root p cs q k)
    (h' : Leads root p cs q' k') : q = q' ∧ k = k' := by
  induction h generalizing q' k' with
  | done =>
    cases h'
    exact ⟨rfl, rfl⟩
  | stay hdot _ ih =>
    cases h' with
    | stay _ hl => exact ih hl
    | up hl => simp at hdot
    | down hdots => exact False.elim (hdots (dots_stay hdot))
    | link hdots => exact False.elim (hdots (dots_stay hdot))
  | up _ ih =>
    cases h' with
    | stay hdot => simp at hdot
    | up hl => exact ih hl
    | down hdots => exact False.elim (hdots dots_up)
    | link hdots => exact False.elim (hdots dots_up)
  | down hdots hfind hlink _ ih =>
    cases h' with
    | stay hdot => exact False.elim (hdots (dots_stay hdot))
    | up => exact False.elim (hdots dots_up)
    | down _ _ _ hl => exact ih hl
    | link _ hfind' =>
      rw [hfind] at hfind'
      exact False.elim (hlink _ (Option.some.inj hfind'))
  | link hdots hfind _ ih =>
    cases h' with
    | stay hdot => exact False.elim (hdots (dots_stay hdot))
    | up => exact False.elim (hdots dots_up)
    | down _ hfind' hlink =>
      rw [hfind] at hfind'
      exact False.elim (hlink _ (Option.some.inj hfind').symm)
    | link _ hfind' hl =>
      rw [hfind] at hfind'
      cases hfind'
      obtain ⟨rfl, rfl⟩ := ih hl
      exact ⟨rfl, rfl⟩

end Leading

section Following
variable {root : Node} {seen : Seen} {p q cs : List String} {l : List String} {k n : Nat}

@[simp] theorem get?_cons (l l' : List String) (found : Option (List String)) (seen : Seen) :
    Seen.get? ((l, found) :: seen) l' = if l = l' then some found else seen.get? l' := by
  by_cases h : l = l' <;> simp [Seen.get?, h]

theorem get?_link {entries : Entries} {c : String} {node : Node} (h : entries.get? c = some node)
    (hp : p ∈ node.links) : c :: p ∈ entries.links := by
  match entries with
  | .nil => cases h
  | .cons name node' rest =>
    rw [Entries.get?] at h
    rw [Entries.links, List.mem_append]
    split at h
    · rename_i hname
      cases h
      exact Or.inl (List.mem_map.mpr ⟨p, hp, by rw [hname]⟩)
    · exact Or.inr (get?_link h hp)

theorem find_link {target : String} (h : root.find p = some (.link target)) : p ∈ root.links := by
  induction p generalizing root with
  | nil =>
    cases h
    simp [Node.links]
  | cons c p ih =>
    cases root with
    | dir entries =>
      rw [Node.find] at h
      cases hget : entries.get? c with
      | none => simp [hget] at h
      | some node =>
        simp only [hget] at h
        exact get?_link hget (ih h)
    | file _ => cases h
    | link _ => cases h
    | special => cases h

/-- The links not met yet. -/
def unseen (root : Node) (seen : Seen) : Nat :=
  (root.links.filter (fun l => (seen.get? l).isNone)).length

/-- No link is forgotten. -/
def Grown (seen seen' : Seen) : Prop := ∀ l, (seen.get? l).isSome = true → (seen'.get? l).isSome = true

theorem Grown.cons (l : List String) (found : Option (List String)) (seen : Seen) :
    Grown seen ((l, found) :: seen) := by
  intro l' h
  rw [get?_cons]
  split
  · rfl
  · exact h

theorem unseen_grown {seen' : Seen} (h : Grown seen seen') : unseen root seen' ≤ unseen root seen := by
  apply List.Sublist.length_le
  apply List.monotone_filter_right
  intro l hnone
  cases hs : seen.get? l with
  | none => rfl
  | some found =>
    have hsome := h l (by rw [hs]; rfl)
    cases hs' : seen'.get? l <;> simp [hs'] at hsome hnone

theorem unseen_cons {target : String} {found : Option (List String)}
    (h : root.find l = some (.link target)) (hnew : seen.get? l = none) :
    unseen root ((l, found) :: seen) < unseen root seen := by
  have hmem : l ∈ root.links.filter (fun l => (seen.get? l).isNone) :=
    List.mem_filter.mpr ⟨find_link h, by rw [hnew]; rfl⟩
  have hsub : root.links.filter (fun l' => (Seen.get? ((l, found) :: seen) l').isNone) =
      (root.links.filter (fun l => (seen.get? l).isNone)).filter (fun l' => decide (l ≠ l')) := by
    rw [List.filter_filter]
    apply List.filter_congr
    intro l' _
    by_cases hl : l = l' <;> simp [hl]
  rw [unseen, unseen, hsub, List.length_filter_lt_length_iff_exists]
  exact ⟨l, hmem, by simp⟩

theorem real_grown : Grown seen (root.real n seen p cs).seen := by
  induction n generalizing seen p cs with
  | zero => exact fun _ h => h
  | succ n ih =>
    rw [Node.real]
    induction cs generalizing seen p with
    | nil => exact fun _ h => h
    | cons c cs ihcs =>
      rw [Node.realWith]
      split
      · exact ihcs
      · split
        · exact ihcs
        · split
          · rename_i target hfind
            split
            · exact ihcs
            · exact fun _ h => h
            · have hcall : Grown seen
                  (root.real n ((p ++ [c], none) :: seen) (start p target) (split target)).seen :=
                fun l h => ih l (Grown.cons _ none seen l h)
              simp only
              split
              · exact fun l h => ihcs l (Grown.cons _ _ _ l (hcall l h))
              · exact hcall
          · exact ihcs

/-- One call more changes nothing. -/
theorem real_calls (h : unseen root seen < n) :
    root.real (n + 1) seen p cs = root.real n seen p cs := by
  induction n generalizing seen p cs with
  | zero => omega
  | succ n ih =>
    rw [Node.real, Node.real]
    induction cs generalizing seen p with
    | nil => rfl
    | cons c cs ihcs =>
      rw [Node.realWith, Node.realWith]
      split
      · exact ihcs h
      · split
        · exact ihcs h
        · split
          · rename_i target hfind
            split
            · exact ihcs h
            · rfl
            · rename_i hnew
              have hless := @unseen_cons root seen _ target none hfind hnew
              have hgrown := @real_grown root ((p ++ [c], none) :: seen) (start p target)
                (split target) n
              have hsame := @ih ((p ++ [c], none) :: seen) (start p target) (split target) (by omega)
              rw [Node.real] at hsame
              rw [hsame]
              generalize root.real n ((p ++ [c], none) :: seen) (start p target) (split target) = r
                at hgrown ⊢
              simp only
              split
              · apply ihcs
                have hcall := @unseen_grown root _ _ hgrown
                have hlast := @unseen_grown root _ _ (Grown.cons (p ++ [c]) (some r.place) r.seen)
                omega
              · rfl
          · exact ihcs h

/-- Links that were followed lead where they are said to. -/
def Truthful (root : Node) (seen : Seen) : Prop :=
  ∀ l target q r i, root.find l = some (.link target) →
    Leads root (start l.dropLast target) (split target) q i → seen.get? l = some (some r) → r = q

/-- Links that are being followed take longer than the way still to go. -/
def Longer (root : Node) (seen : Seen) (k : Nat) : Prop :=
  ∀ l target q i, root.find l = some (.link target) →
    Leads root (start l.dropLast target) (split target) q i → seen.get? l = some none → k ≤ i

/-- A call that arrived, and has no more links to follow than before. -/
structure Arrived (root : Node) (seen : Seen) (q : List String) (r : Real) : Prop where
  place : r.place = q
  ok : r.ok = true
  truthful : Truthful root r.seen
  following : ∀ l, r.seen.get? l = some none → seen.get? l = some none

theorem Longer.mono {j : Nat} (h : Longer root seen k) (hj : j ≤ k) : Longer root seen j :=
  fun l target q i hfind hl hs => hj.trans (h l target q i hfind hl hs)

theorem Truthful.follow (h : Truthful root seen) (l : List String) :
    Truthful root ((l, none) :: seen) := by
  intro l' target q r i hfind hl hs
  rw [get?_cons] at hs
  split at hs
  · cases hs
  · exact h l' target q r i hfind hl hs

theorem Truthful.learn {target : String} {r : List String} {i : Nat} (h : Truthful root seen)
    (hfind : root.find l = some (.link target))
    (hl : Leads root (start l.dropLast target) (split target) r i) :
    Truthful root ((l, some r) :: seen) := by
  intro l' target' q' r' i' hfind' hl' hs
  rw [get?_cons] at hs
  split at hs
  · rename_i heq
    subst heq
    rw [hfind] at hfind'
    cases hfind'
    cases hs
    exact (hl.unique hl').1
  · exact h l' target' q' r' i' hfind' hl' hs

/-- The way behind a link is no longer than itself. -/
theorem Longer.follow {target : String} {r : List String} {i : Nat} (h : Longer root seen i)
    (hfind : root.find l = some (.link target))
    (hl : Leads root (start l.dropLast target) (split target) r i) :
    Longer root ((l, none) :: seen) i := by
  intro l' target' q' i' hfind' hl' hs
  rw [get?_cons] at hs
  split at hs
  · rename_i heq
    subst heq
    rw [hfind] at hfind'
    cases hfind'
    exact le_of_eq (hl.unique hl').2
  · exact h l' target' q' i' hfind' hl' hs

/-- Where components lead is where `realpath` goes. -/
theorem real_leads (h : Leads root p cs q k) (truthful : Truthful root seen)
    (longer : Longer root seen k) (calls : unseen root seen < n) :
    Arrived root seen q (root.real n seen p cs) := by
  induction k using Nat.strong_induction_on generalizing n seen p cs q with
  | _ k ih =>
    cases n with
    | zero => omega
    | succ n =>
      rw [Node.real]
      induction cs generalizing p with
      | nil =>
        cases h
        exact ⟨rfl, rfl, truthful, fun _ hl => hl⟩
      | cons c cs ihcs =>
        rw [Node.realWith]
        cases h with
        | stay hdot hl =>
          rw [if_pos hdot]
          exact ihcs hl
        | up hl =>
          rw [if_neg (by decide), if_pos rfl]
          exact ihcs hl
        | down hdots hfind hlink hl =>
          rw [if_neg (fun hdot => hdots (dots_stay hdot)),
            if_neg (fun hup => hdots (isDots_iff.mpr (Or.inr hup)))]
          split
          · rename_i target hfind'
            rw [hfind] at hfind'
            exact False.elim (hlink target (Option.some.inj hfind'))
          · exact ihcs hl
        | @link _ _ _ _ target k hdots hfind hl =>
          rw [if_neg (fun hdot => hdots (dots_stay hdot)),
            if_neg (fun hup => hdots (isDots_iff.mpr (Or.inr hup)))]
          obtain ⟨r, i, j, htarget, hrest, hk⟩ := hl.split
          have hfrom : Leads root (start (p ++ [c]).dropLast target) (split target) r i := by
            rw [List.dropLast_concat]
            exact htarget
          simp only [hfind]
          split
          · -- where the link leads is known already
            rename_i q' hseen
            obtain rfl := truthful _ _ _ _ _ hfind hfrom hseen
            exact ih j (by omega) hrest truthful (longer.mono (by omega)) calls
          · -- the link cannot be one that is being followed
            rename_i hseen
            have hlong := longer _ _ _ _ hfind hfrom hseen
            omega
          · rename_i hnew
            have hless := @unseen_cons root seen _ target none hfind hnew
            have truthful' := truthful.follow (p ++ [c])
            have longer' := (longer.mono (show i ≤ k + 1 by omega)).follow hfind hfrom
            have hcall := ih i (by omega) htarget truthful' longer' (n := n) (by omega)
            have hgrown := @real_grown root ((p ++ [c], none) :: seen) (start p target)
              (PosixPath.split target) n
            generalize root.real n ((p ++ [c], none) :: seen) (start p target)
              (PosixPath.split target) = found at hcall hgrown ⊢
            obtain ⟨rfl, hok, htruth, hfollowing⟩ := hcall
            rw [if_pos hok]
            have reopened {l : List String}
                (hs : Seen.get? ((p ++ [c], some found.place) :: found.seen) l = some none) :
                seen.get? l = some none := by
              rw [get?_cons] at hs
              split at hs
              · cases hs
              · rename_i hne
                have hs' := hfollowing l hs
                rwa [get?_cons, if_neg hne] at hs'
            have hafter : Arrived root ((p ++ [c], some found.place) :: found.seen) q
                (root.real (n + 1) ((p ++ [c], some found.place) :: found.seen) found.place cs) := by
              refine ih j (by omega) hrest (htruth.learn hfind hfrom) ?_ ?_
              · intro l target' q' i' hfind' hl' hs
                have hlong := longer l target' q' i' hfind' hl' (reopened hs)
                omega
              · have hfirst := @unseen_grown root _ _ hgrown
                have hlast := @unseen_grown root _ _
                  (Grown.cons (p ++ [c]) (some found.place) found.seen)
                omega
            obtain ⟨hplace, hok', htruth', hfollowing'⟩ := hafter
            exact ⟨hplace, hok', htruth', fun l hl => reopened (hfollowing' l hl)⟩

/-- The places links were found to lead to are names. -/
def NamesOnly (seen : Seen) : Prop := ∀ l q, seen.get? l = some (some q) → Parts q

theorem NamesOnly.follow (h : NamesOnly seen) (l : List String) :
    NamesOnly ((l, none) :: seen) := by
  intro l' q hs
  rw [get?_cons] at hs
  split at hs
  · cases hs
  · exact h l' q hs

theorem NamesOnly.learn (h : NamesOnly seen) (l : List String) (hp : Parts p) :
    NamesOnly ((l, some p) :: seen) := by
  intro l' q hs
  rw [get?_cons] at hs
  split at hs
  · cases hs
    exact hp
  · exact h l' q hs

theorem rejoin_parts (hp : Parts p) (hcs : ∀ c ∈ cs, '/' ∉ c.toList) : Parts (rejoin p cs) := by
  unfold rejoin
  split
  · have hnil : Parts [] := by simp [Parts]
    exact hnil.foldl (fun d hd => hcs d (List.mem_cons_of_mem _ hd))
  · exact hp.foldl hcs

theorem real_parts (hp : Parts p) (hcs : ∀ c ∈ cs, '/' ∉ c.toList) (names : NamesOnly seen) :
    Parts (root.real n seen p cs).place ∧ NamesOnly (root.real n seen p cs).seen := by
  induction n generalizing seen p cs with
  | zero => exact ⟨hp, names⟩
  | succ n ih =>
    rw [Node.real]
    induction cs generalizing seen p with
    | nil => exact ⟨hp, names⟩
    | cons c cs ihcs =>
      have hc := hcs c List.mem_cons_self
      have hrest : ∀ d ∈ cs, '/' ∉ d.toList := fun d hd => hcs d (List.mem_cons_of_mem c hd)
      rw [Node.realWith]
      split
      · exact ihcs hp hrest names
      · rename_i hdot
        split
        · exact ihcs (fun d hd => hp d (List.dropLast_subset p hd)) hrest names
        · rename_i hup
          have hnext : Parts (p ++ [c]) := by
            have hfollow := hp.follow hc
            rwa [PosixPath.follow, if_neg hdot, if_neg hup] at hfollow
          split
          · rename_i target hfind
            split
            · rename_i q hq
              exact ihcs (names _ _ hq) hrest names
            · exact ⟨rejoin_parts hnext hrest, names⟩
            · obtain ⟨hplace, hseen⟩ := @ih ((p ++ [c], none) :: seen) (start p target)
                (split target) (hp.start target) (fun d hd => split_noSlash hd) (names.follow _)
              simp only
              split
              · exact ihcs hplace hrest (hseen.learn _ hplace)
              · exact ⟨rejoin_parts hplace hrest, hseen⟩
          · exact ihcs hnext hrest names

end Following

section Disks
variable {disk : LinkedDisk} {path : String} {p q : List String} {content : List UInt8}

theorem unseen_nil (root : Node) : unseen root [] < root.links.length + 1 := by
  have hle := List.length_filter_le (fun l => (Seen.get? [] l).isNone) root.links
  rw [unseen]
  omega

theorem realplace_parts (disk : LinkedDisk) (path : String) : Parts (disk.realplace path) := by
  have names : NamesOnly [] := by
    intro l q h
    cases h
  exact (real_parts (disk.cwdParts.start path) (fun c hc => split_noSlash hc) names).1

/-- More calls would not change where `realpath` goes. -/
theorem realplace_calls {n : Nat} (h : disk.root.links.length < n) :
    (disk.root.real n [] (start disk.cwd path) (split path)).place = disk.realplace path := by
  induction n, h using Nat.le_induction with
  | base => rfl
  | succ n hn ih =>
    have hmore := (unseen_nil disk.root).trans_le hn
    rw [real_calls hmore, ih]

theorem lookup_walk {m : Nat} (h : disk.lookup path = some (q, m)) : path ≠ "" ∧
    hasNul path = false ∧ disk.root.walk maxLinks (start disk.cwd path) (split path) = some (q, m) := by
  unfold LinkedDisk.lookup at h
  split at h
  · cases h
  · rename_i hok
    simp only [not_or, Bool.not_eq_true] at hok
    exact ⟨hok.1, hok.2, h⟩

theorem resolve_lookup (h : disk.resolve path = some q) : ∃ m, disk.lookup path = some (q, m) := by
  obtain ⟨⟨p, m⟩, hr, rfl⟩ := Option.map_eq_some_iff.mp h
  exact ⟨m, hr⟩

theorem resolve_leads (h : disk.resolve path = some q) :
    ∃ k, Leads disk.root (start disk.cwd path) (split path) q k := by
  obtain ⟨m, hm⟩ := resolve_lookup h
  obtain ⟨k, -, hl⟩ := walk_leads (lookup_walk hm).2.2
  exact ⟨k, hl⟩

/-- `realpath` gives the place the kernel finds. -/
theorem realplace_resolve (h : disk.resolve path = some q) : disk.realplace path = q := by
  obtain ⟨k, hl⟩ := resolve_leads h
  have truthful : Truthful disk.root [] := by
    intro l target q r i _ _ hs
    cases hs
  have longer : Longer disk.root [] k := by
    intro l target q i _ _ hs
    cases hs
  exact (real_leads hl truthful longer (unseen_nil disk.root)).place

theorem read_resolve (h : disk.read path = some (p, content)) :
    disk.resolve path = some p ∧ disk.root.find p = some (.file content) := by
  unfold LinkedDisk.read at h
  cases hr : disk.resolve path with
  | none => simp [hr] at h
  | some q =>
    simp only [hr] at h
    split at h
    · rename_i found hfind
      cases h
      exact ⟨rfl, hfind⟩
    · cases h

theorem read_congr {path' : String} (h : disk.lookup path = disk.lookup path') :
    disk.read path = disk.read path' := by
  simp only [LinkedDisk.read, LinkedDisk.resolve, h]

theorem read_place (h : disk.read path = some (p, content)) : disk.realplace path = p :=
  realplace_resolve (read_resolve h).1

theorem isdir_iff : disk.isdir path = true ↔
    ∃ p entries, disk.resolve path = some p ∧ disk.root.find p = some (.dir entries) := by
  unfold LinkedDisk.isdir
  cases hr : disk.resolve path with
  | none => simp
  | some p => simp [isDir_iff]

end Disks

end LinkedFiles
