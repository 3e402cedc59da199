import CPretty.Text.Quoted
import Mathlib.Data.List.Basic

namespace CPretty.Text

variable {a b c : Char} {m n : Nat} {as bs xs ys zs : List Char}

theorem digitChar_inj (hm : m < 16) (hn : n < 16) (h : m.digitChar = n.digitChar) : m = n := by
  have distinct : ∀ m < 16, ∀ n < 16, m.digitChar = n.digitChar → m = n := by decide
  exact distinct m hm n hn h

theorem toDigits_append_ne (d d' : Char) : Nat.toDigits 16 n ++ [d] ≠ [d'] := by
  intro h
  exact Nat.toDigits_ne_nil (List.append_eq_singleton_iff.mp h |>.resolve_right
    (fun h => List.cons_ne_nil d [] h.2)).1

theorem toDigits_inj (h : Nat.toDigits 16 m = Nat.toDigits 16 n) : m = n := by
  induction m using Nat.strongRecOn generalizing n with
  | ind m ih =>
    rw [Nat.toDigits_eq_if (by decide), Nat.toDigits_eq_if (n := n) (by decide)] at h
    split at h <;> split at h
    next hm hn => exact digitChar_inj hm hn (List.singleton_inj.mp h)
    next => exact absurd h.symm (toDigits_append_ne _ _)
    next => exact absurd h (toDigits_append_ne _ _)
    next hm hn =>
      obtain ⟨front, last⟩ := List.append_inj' h rfl
      have high := ih (m / 16) (by omega) front
      have low := digitChar_inj (Nat.mod_lt _ (by decide)) (Nat.mod_lt _ (by decide))
        (List.singleton_inj.mp last)
      omega

theorem brace_notMem_toDigits (n : Nat) : '\x7d' ∉ Nat.toDigits 16 n := by
  induction n using Nat.strongRecOn with
  | ind n ih =>
    rw [Nat.toDigits_eq_if (by decide)]
    split
    next => exact mt List.mem_singleton.mp (Nat.digitChar_ne '\x7d' rfl).symm
    next hn =>
      rw [List.mem_append, List.mem_singleton, not_or]
      exact ⟨ih (n / 16) (by omega), (Nat.digitChar_ne '\x7d' rfl).symm⟩

/-- What stands before the first of two equal marks is the same. -/
theorem append_cons_inj (ha : c ∉ as) (hb : c ∉ bs) (h : as ++ c :: xs = bs ++ c :: ys) :
    as = bs ∧ xs = ys := by
  induction as generalizing bs with
  | nil =>
    cases bs with
    | nil => exact ⟨rfl, List.tail_eq_of_cons_eq h⟩
    | cons b bs => exact absurd (List.head_eq_of_cons_eq h ▸ List.mem_cons_self) hb
  | cons a as ih =>
    cases bs with
    | nil => exact absurd (List.head_eq_of_cons_eq h ▸ List.mem_cons_self) ha
    | cons b bs =>
      obtain ⟨rfl, tails⟩ := List.cons.inj h
      obtain ⟨rfl, rest⟩ := ih (List.not_mem_of_not_mem_cons ha)
        (List.not_mem_of_not_mem_cons hb) tails
      exact ⟨rfl, rest⟩

theorem hexEscape_append_inj (h : hexEscape a ++ xs = hexEscape b ++ ys) : a = b ∧ xs = ys := by
  simp only [hexEscape, List.append_assoc, List.append_cancel_left_eq, List.singleton_append] at h
  obtain ⟨digits, rest⟩ :=
    append_cons_inj (brace_notMem_toDigits _) (brace_notMem_toDigits _) h
  exact ⟨Char.toNat_inj.mp (toDigits_inj digits), rest⟩

/-- The letter behind the backslash of a short escape, for each character that has one. -/
def escapeLetters : List (Char × Char) :=
  [('\x00', '0'), ('\t', 't'), ('\r', 'r'), ('\n', 'n'), ('\\', '\\'), ('"', '"')]

/-- The forms in which a character stands between double quotes. -/
inductive Escaped (c : Char) : List Char → Prop
  | plain (hs : c ≠ '\\') (hq : c ≠ '"') : Escaped c [c]
  | letter {l : Char} (h : (c, l) ∈ escapeLetters) : Escaped c ['\\', l]
  | hex : Escaped c (hexEscape c)

theorem escaped_escapeChar (c : Char) : Escaped c (escapeChar '"' c) := by
  have letter {a l : Char} (h : c = a) (hl : (a, l) ∈ escapeLetters) : Escaped c ['\\', l] :=
    .letter (h ▸ hl)
  unfold escapeChar
  split
  next h => exact letter h (by decide)
  split
  next h => exact letter h (by decide)
  split
  next h => exact letter h (by decide)
  split
  next h => exact letter h (by decide)
  split
  next h => exact letter h (by decide)
  next hs =>
    split
    next h =>
      subst h
      exact letter rfl (by decide)
    next hq =>
      split
      next => exact .hex
      next => exact .plain hs hq

namespace Escaped

theorem ne_u (h : (c, a) ∈ escapeLetters) : a ≠ 'u' := by
  have names : ∀ p ∈ escapeLetters, p.2 ≠ 'u' := by decide
  exact names _ h

theorem letter_inj (h : (a, c) ∈ escapeLetters) (h' : (b, c) ∈ escapeLetters) : a = b := by
  have names : ∀ p ∈ escapeLetters, ∀ q ∈ escapeLetters, p.2 = q.2 → p.1 = q.1 := by decide
  exact names _ h _ h' rfl

theorem head_ne_quote (h : Escaped c zs) : zs ++ xs ≠ '"' :: ys := by
  cases h with
  | plain hs hq => exact fun he => hq (List.head_eq_of_cons_eq he)
  | letter | hex => exact fun he => absurd (List.head_eq_of_cons_eq he) (by decide)

/-- An escape tells its character and where it ends. -/
theorem append_inj (ha : Escaped a as) (hb : Escaped b bs) (h : as ++ xs = bs ++ ys) :
    a = b ∧ xs = ys := by
  cases ha with
  | plain hs hq =>
    cases hb with
    | plain => exact List.cons.inj h
    | letter | hex => exact absurd (List.head_eq_of_cons_eq h) hs
  | letter hl =>
    cases hb with
    | plain hs hq => exact absurd (List.head_eq_of_cons_eq h).symm hs
    | letter hl' =>
      obtain ⟨rfl, rest⟩ := List.cons.inj (List.tail_eq_of_cons_eq h)
      exact ⟨letter_inj hl hl', rest⟩
    | hex => exact absurd (List.head_eq_of_cons_eq (List.tail_eq_of_cons_eq h)) (ne_u hl)
  | hex =>
    cases hb with
    | plain hs hq => exact absurd (List.head_eq_of_cons_eq h).symm hs
    | letter hl => exact absurd (List.head_eq_of_cons_eq (List.tail_eq_of_cons_eq h)).symm (ne_u hl)
    | hex => exact hexEscape_append_inj h

end Escaped

theorem escaped_append_inj
    (h : as.flatMap (escapeChar '"') ++ '"' :: xs = bs.flatMap (escapeChar '"') ++ '"' :: ys) :
    as = bs ∧ xs = ys := by
  induction as generalizing bs with
  | nil =>
    cases bs with
    | nil => exact ⟨rfl, List.tail_eq_of_cons_eq h⟩
    | cons b bs =>
      rw [List.flatMap_cons, List.append_assoc] at h
      exact absurd h.symm (escaped_escapeChar b).head_ne_quote
  | cons a as ih =>
    rw [List.flatMap_cons, List.append_assoc] at h
    cases bs with
    | nil => exact absurd h (escaped_escapeChar a).head_ne_quote
    | cons b bs =>
      rw [List.flatMap_cons, List.append_assoc] at h
      obtain ⟨rfl, tails⟩ := (escaped_escapeChar a).append_inj (escaped_escapeChar b) h
      obtain ⟨rfl, rest⟩ := ih tails
      exact ⟨rfl, rest⟩

theorem quoteWith_append_inj (h : quoteWith '"' as ++ xs = quoteWith '"' bs ++ ys) :
    as = bs ∧ xs = ys := by
  simp only [quoteWith, List.cons_append, List.append_assoc] at h
  exact escaped_append_inj (List.tail_eq_of_cons_eq h)

end CPretty.Text
