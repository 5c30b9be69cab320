import Mathlib.Data.List.TakeDrop
import Mathlib.Data.Nat.Digits.Defs

/-!
# Reading what was printed

A reader takes something from the beginning of a text and leaves the rest.  Where it takes back what
was printed, whatever comes after it, nothing is lost by printing.
-/

universe u v

namespace Reading

/-- What is read from a text, and the rest of the text. -/
abbrev Reader := StateT (List Char) Option

section

variable {α : Type} {β : Type} {read : Reader α} {next : α → Reader β} {s s' : List Char} {a : α}

theorem bind_of_some (h : read s = some (a, s')) : (read >>= next) s = next a s' := by
  change (read s).bind _ = _
  rw [h]
  rfl

end

/-- Read a fixed text. -/
def literal (text : List Char) : Reader Unit :=
  fun s ↦ if text.isPrefixOf s then some ((), s.drop text.length) else none

theorem literal_append (text rest : List Char) : literal text (text ++ rest) = some ((), rest) := by
  have hprefix : text.isPrefixOf (text ++ rest) = true :=
    List.isPrefixOf_iff_prefix.mpr (List.prefix_append _ _)
  rw [literal, if_pos hprefix, List.drop_left]

/-! ## Numbers -/

/-- The value of a digit. -/
def digit (b : ℕ) (c : Char) : Option ℕ := (List.range b).find? fun d ↦ d.digitChar = c

/-- Read digits that come after a number. -/
def readDigits (b : ℕ) : ℕ → List Char → ℕ × List Char
  | n, [] => (n, [])
  | n, c :: s =>
      match digit b c with
      | none => (n, c :: s)
      | some d => readDigits b (b * n + d) s

/-- Read a number. -/
def number (b : ℕ) : Reader ℕ := fun s ↦ some (readDigits b 0 s)

/-- A number is printed with zeros before it. -/
def padded (b width n : ℕ) : List Char := (Nat.toDigits b n).leftpad width '0'

/-- No digit comes first. -/
def Stops (b : ℕ) (s : List Char) : Prop := ∀ c ∈ s.head?, digit b c = none

instance (b : ℕ) : (s : List Char) → Decidable (Stops b s)
  | [] => isTrue nofun
  | c :: _ => decidable_of_iff ((digit b c).isNone = true) (by simp [Stops])

section

variable {b n d : ℕ} {s : List Char}

theorem digitChar_inj (hn : n < 16) (hd : d < 16) (h : n.digitChar = d.digitChar) : n = d := by
  have hinj : ∀ x y : Fin 16, Nat.digitChar x = Nat.digitChar y → x = y := by decide
  exact congrArg Fin.val (hinj ⟨n, hn⟩ ⟨d, hd⟩ h)

theorem digit_digitChar (hb : b ≤ 16) (hd : d < b) : digit b d.digitChar = some d := by
  refine List.find?_eq_some_iff_getElem.mpr ⟨decide_eq_true rfl, d, ?_, List.getElem_range _, ?_⟩
  · rwa [List.length_range]
  · intro j hj
    rw [List.getElem_range, Bool.not_eq_true', decide_eq_false_iff_not]
    exact fun h ↦ hj.ne (digitChar_inj (by omega) (by omega) h)

theorem readDigits_digitChar (hb : b ≤ 16) (hd : d < b) :
    readDigits b n (d.digitChar :: s) = readDigits b (b * n + d) s := by
  rw [readDigits, digit_digitChar hb hd]

theorem readDigits_of_stops (h : Stops b s) : readDigits b n s = (n, s) := by
  cases s with
  | nil => rfl
  | cons c s => rw [readDigits, h c rfl]

theorem readDigits_zeros (hb₁ : 1 < b) (hb : b ≤ 16) (k : ℕ) :
    readDigits b 0 (List.replicate k '0' ++ s) = readDigits b 0 s := by
  induction k with
  | zero => rfl
  | succ k ih =>
      rw [List.replicate_succ, List.cons_append]
      exact (readDigits_digitChar hb (zero_lt_one.trans hb₁)).trans ih

theorem readDigits_toDigits (hb₁ : 1 < b) (hb : b ≤ 16) :
    readDigits b 0 (Nat.toDigits b n ++ s) = readDigits b n s := by
  induction n using Nat.strong_induction_on generalizing s with
  | _ n ih =>
      rcases Nat.lt_or_ge n b with hlt | hle
      · rw [Nat.toDigits_of_lt_base hlt, List.singleton_append, readDigits_digitChar hb hlt,
          Nat.mul_zero, Nat.zero_add]
      · have hpos : 0 < b := zero_lt_one.trans hb₁
        rw [Nat.toDigits_of_base_le hb₁ hle, List.append_assoc, List.singleton_append,
          ih _ (Nat.div_lt_self (hpos.trans_le hle) hb₁),
          readDigits_digitChar hb (Nat.mod_lt _ hpos), Nat.div_add_mod]

theorem Stops.append {s' : List Char} (hne : s ≠ []) (h : Stops b s) : Stops b (s ++ s') := by
  cases s with
  | nil => exact absurd rfl hne
  | cons c s => exact h

/-- A number is read back, however it is padded. -/
theorem number_padded (hb₁ : 1 < b) (hb : b ≤ 16) (width n : ℕ) (h : Stops b s) :
    number b (padded b width n ++ s) = some (n, s) := by
  rw [number, padded, List.leftpad, List.append_assoc, readDigits_zeros hb₁ hb,
    readDigits_toDigits hb₁ hb, readDigits_of_stops h]

theorem number_toDigits (hb₁ : 1 < b) (hb : b ≤ 16) (n : ℕ) (h : Stops b s) :
    number b (Nat.toDigits b n ++ s) = some (n, s) := by
  rw [number, readDigits_toDigits hb₁ hb, readDigits_of_stops h]

/-- A number is printed as digits. -/
theorem exists_of_mem_toDigits {c : Char} (hb₁ : 1 < b) (h : c ∈ Nat.toDigits b n) :
    ∃ d < b, c = d.digitChar := by
  induction n using Nat.strong_induction_on with
  | _ n ih =>
      rcases Nat.lt_or_ge n b with hlt | hle
      · rw [Nat.toDigits_of_lt_base hlt, List.mem_singleton] at h
        exact ⟨n, hlt, h⟩
      · have hpos : 0 < b := zero_lt_one.trans hb₁
        rw [Nat.toDigits_of_base_le hb₁ hle, List.mem_append, List.mem_singleton] at h
        rcases h with h | rfl
        · exact ih _ (Nat.div_lt_self (hpos.trans_le hle) hb₁) h
        · exact ⟨n % b, Nat.mod_lt _ hpos, rfl⟩

theorem exists_of_mem_padded {c : Char} {width : ℕ} (hb₁ : 1 < b) (h : c ∈ padded b width n) :
    ∃ d < b, c = d.digitChar := by
  rcases List.mem_append.mp h with h | h
  · exact ⟨0, zero_lt_one.trans hb₁, (List.mem_replicate.mp h).2⟩
  · exact exists_of_mem_toDigits hb₁ h

end

/-! ## Sequences -/

/-- Read a number of things. -/
def times {α : Type} : ℕ → Reader α → Reader (List α)
  | 0, _ => pure []
  | n + 1, read => do
      let a ← read
      let as ← times n read
      pure (a :: as)

/-- What is printed one by one is read back. -/
theorem times_flatMap {α : Type} {read : Reader α} {print : α → List Char} {as : List α}
    (h : ∀ a ∈ as, ∀ s, read (print a ++ s) = some (a, s)) (s : List Char) :
    times as.length read (as.flatMap print ++ s) = some (as, s) := by
  induction as with
  | nil => rfl
  | cons a as ih =>
      rw [List.flatMap_cons, List.append_assoc]
      exact (bind_of_some (h a List.mem_cons_self _)).trans
        (bind_of_some (ih fun a ha ↦ h a (List.mem_cons_of_mem _ ha)))

end Reading
