import Mathlib.Data.List.Basic
import Mathlib.Tactic.Common

/-!
# Glob patterns

The patterns of Redis: `*` stands for any characters, `?` for one, brackets for
one out of a set, and a backslash takes the meaning of the next character away.
Most patterns are a text, or a text with a star behind it.
-/

namespace Glob

/-- What brackets hold; the ends of a range come in any order. -/
inductive Item where
  | single (c : Char)
  | range (first last : Char)

def Item.covers : Item → Char → Bool
  | .single d, c => c == d
  | .range first last, c => (first ≤ c && c ≤ last) || (last ≤ c && c ≤ first)

inductive Token where
  | char (c : Char)
  | one
  | set (negated : Bool) (items : List Item)
  | any

/-- An open bracket comes with what it holds so far; one that is never closed
ends with the pattern. -/
def tokens : Option (Bool × List Item) → List Char → List Token
  | none, [] => []
  | none, '*' :: cs => .any :: tokens none cs
  | none, '?' :: cs => .one :: tokens none cs
  | none, '[' :: '^' :: cs => tokens (some (true, [])) cs
  | none, '[' :: cs => tokens (some (false, [])) cs
  | none, '\\' :: c :: cs => .char c :: tokens none cs
  | none, c :: cs => .char c :: tokens none cs
  | some (negated, items), [] => [.set negated items]
  | some (negated, items), '\\' :: c :: cs => tokens (some (negated, items ++ [.single c])) cs
  | some (negated, items), ']' :: cs => .set negated items :: tokens none cs
  | some (negated, items), c :: '-' :: d :: cs =>
    tokens (some (negated, items ++ [.range c d])) cs
  | some (negated, items), c :: cs => tokens (some (negated, items ++ [.single c])) cs

def Token.covers : Token → Char → Bool
  | .char d, c => c == d
  | .one, _ => true
  | .set negated items, c => items.any (fun item => item.covers c) != negated
  | .any, _ => true

/-- Some end of the text passes. -/
def someEnd (passes : List Char → Bool) : List Char → Bool
  | [] => passes []
  | c :: cs => passes (c :: cs) || someEnd passes cs

def matchTokens : List Token → List Char → Bool
  | [], cs => cs.isEmpty
  | .any :: ts, cs => someEnd (matchTokens ts) cs
  | _ :: _, [] => false
  | t :: ts, c :: cs => t.covers c && matchTokens ts cs

def isMatch (pattern text : String) : Bool := matchTokens (tokens none pattern.toList) text.toList

/-- A character that stands for itself. -/
def Plain (c : Char) : Prop := c ≠ '*' ∧ c ≠ '?' ∧ c ≠ '[' ∧ c ≠ '\\'

instance (c : Char) : Decidable (Plain c) := inferInstanceAs (Decidable (_ ∧ _ ∧ _ ∧ _))

section Matching
variable {ts : List Token} {cs rest text : List Char} {passes : List Char → Bool}

theorem someEnd_iff : someEnd passes text = true ↔ ∃ pre, ∃ post, text = pre ++ post ∧
    passes post = true := by
  induction text with
  | nil =>
    constructor
    · intro h
      exact ⟨[], [], rfl, h⟩
    · rintro ⟨pre, post, hsplit, h⟩
      obtain ⟨-, rfl⟩ := List.append_eq_nil_iff.mp hsplit.symm
      exact h
  | cons c text ih =>
    rw [someEnd, Bool.or_eq_true, ih]
    constructor
    · rintro (h | ⟨pre, post, rfl, h⟩)
      · exact ⟨[], c :: text, rfl, h⟩
      · exact ⟨c :: pre, post, rfl, h⟩
    · rintro ⟨pre, post, hsplit, h⟩
      cases pre with
      | nil =>
        left
        rw [List.nil_append] at hsplit
        exact hsplit ▸ h
      | cons d pre =>
        cases hsplit
        exact Or.inr ⟨pre, post, rfl, h⟩

theorem matchTokens_any : matchTokens (.any :: ts) text = true ↔ ∃ pre, ∃ post,
    text = pre ++ post ∧ matchTokens ts post = true := by
  rw [matchTokens, someEnd_iff]

theorem matchTokens_chars : matchTokens (cs.map .char ++ ts) text = true ↔
    ∃ post, text = cs ++ post ∧ matchTokens ts post = true := by
  induction cs generalizing text with
  | nil => simp
  | cons c cs ih =>
    cases text with
    | nil => simp [matchTokens]
    | cons d text =>
      rw [List.map_cons, List.cons_append, matchTokens, Bool.and_eq_true, ih]
      · simp only [Token.covers, beq_iff_eq, List.cons_append, List.cons.injEq]
        constructor
        · rintro ⟨rfl, post, rfl, h⟩
          exact ⟨post, ⟨rfl, rfl⟩, h⟩
        · rintro ⟨post, ⟨rfl, rfl⟩, h⟩
          exact ⟨rfl, post, rfl, h⟩
      · simp

theorem tokens_plain (plain : ∀ c ∈ cs, Plain c) :
    tokens none (cs ++ rest) = cs.map .char ++ tokens none rest := by
  induction cs with
  | nil => rfl
  | cons c cs ih =>
    obtain ⟨hstar, hone, hset, hquote⟩ := plain c List.mem_cons_self
    rw [List.cons_append, tokens, ih (fun d hd => plain d (List.mem_cons_of_mem c hd))]
    · rfl
    all_goals simp_all

variable {pattern key : String}

/-- A pattern of plain characters is matched by itself only. -/
theorem isMatch_plain (plain : ∀ c ∈ pattern.toList, Plain c) :
    isMatch pattern key = true ↔ key = pattern := by
  have htokens := @tokens_plain pattern.toList [] plain
  rw [List.append_nil] at htokens
  rw [isMatch, htokens, matchTokens_chars, ← String.toList_inj]
  constructor
  · rintro ⟨post, htext, h⟩
    rw [tokens, matchTokens, List.isEmpty_iff] at h
    rw [htext, h, List.append_nil]
  · intro h
    exact ⟨[], by rw [h, List.append_nil], rfl⟩

/-- With a star behind them they are matched by what starts with them. -/
theorem isMatch_star (plain : ∀ c ∈ pattern.toList, Plain c) :
    isMatch (pattern ++ "*") key = true ↔ ∃ rest, key = pattern ++ rest := by
  have hstar : (pattern ++ "*").toList = pattern.toList ++ ['*'] := by simp
  have hall (post : List Char) : matchTokens (tokens none ['*']) post = true := by
    rw [tokens, matchTokens_any]
    exact ⟨post, [], by simp, rfl⟩
  rw [isMatch, hstar, tokens_plain plain, matchTokens_chars]
  constructor
  · rintro ⟨post, htext, -⟩
    refine ⟨String.ofList post, ?_⟩
    rw [← String.toList_inj, String.toList_append, String.toList_ofList, htext]
  · rintro ⟨rest, rfl⟩
    exact ⟨rest.toList, by simp, hall _⟩

end Matching

example : isMatch "h[a-c\\]]?*" "h]!" = true ∧ isMatch "h[^a]*" "ha" = false := by decide

end Glob
