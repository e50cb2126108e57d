/-!
# The order of keys

Strings are compared by code points. Their UTF-8 forms, compared byte by byte, are in the same
order: more bytes mean a greater first byte, and among characters of equally many bytes the first
byte that differs decides as the code points do.
-/

namespace TriStore.KeyOrder

def bytes (s : String) : List UInt8 := s.toUTF8.data.toList

/-- The weight of the lowest of the bits that `k` bytes follow. -/
def place : Nat → Nat
  | 0 => 1
  | k + 1 => place k * 64

/-- The bytes that follow the first byte of a character: `k` of them, with six bits each. -/
def continuation (code : Nat) : Nat → List UInt8
  | 0 => []
  | k + 1 => UInt8.ofNat (code / place k % 64 + 0x80) :: continuation code k

def lead : Nat → Nat
  | 0 => 0
  | 1 => 0xc0
  | 2 => 0xe0
  | 3 => 0xf0
  | _ => 0xf8

def least : Nat → Nat
  | 0 => 0
  | 1 => 0x80
  | 2 => 0x800
  | 3 => 0x10000
  | _ => 0x110000

theorem lead_mono : ∀ k < 5, ∀ j ≤ k, lead j ≤ lead k := by decide

theorem least_mono : ∀ k < 5, ∀ j ≤ k, least j ≤ least k := by decide

theorem code_lt (c : Char) : c.val.toNat < 0x110000 := by
  rcases c.valid with h | h
  · exact Nat.lt_trans h (by decide)
  · exact h.2

/-- The form of a character: how many bytes follow the first one depends on its code point. -/
theorem encode_eq (c : Char) : ∃ k, k < 4 ∧ least k ≤ c.val.toNat ∧ c.val.toNat < least (k + 1) ∧
    String.utf8EncodeChar c =
      UInt8.ofNat (c.val.toNat / place k + lead k) :: continuation c.val.toNat k := by
  have hc := code_lt c
  unfold String.utf8EncodeChar
  generalize c.val.toNat = v at hc
  simp only
  split
  · next h => exact ⟨0, by decide, Nat.zero_le _, Nat.lt_succ_of_le h, by simp [continuation, place, lead]⟩
  · split
    · next hlow h =>
      refine ⟨1, by decide, Nat.lt_of_not_le hlow, Nat.lt_succ_of_le h, ?_⟩
      have hmod : v / 64 % 0x20 = v / 64 := by omega
      simp [continuation, place, lead, hmod]
    · split
      · next hlow h =>
        refine ⟨2, by decide, Nat.lt_of_not_le hlow, Nat.lt_succ_of_le h, ?_⟩
        have hmod : v / 4096 % 0x10 = v / 4096 := by omega
        simp [continuation, place, lead, hmod]
      · next hlow =>
        refine ⟨3, by decide, Nat.lt_of_not_le hlow, hc, ?_⟩
        have hmod : v / 262144 % 0x08 = v / 262144 := by omega
        simp [continuation, place, lead, hmod]

theorem first_lt {v k : Nat} (hk : k < 4) (hv : v < least (k + 1)) :
    v / place k + lead k < lead (k + 1) := by
  match k, hk, hv with
  | 0, _, hv => simp only [least] at hv; simp [place, lead]; omega
  | 1, _, hv => simp only [least] at hv; simp [place, lead]; omega
  | 2, _, hv => simp only [least] at hv; simp [place, lead]; omega
  | 3, _, hv => simp only [least] at hv; simp [place, lead]; omega

theorem cons_lt_cons {m n : Nat} {xs ys : List UInt8} (hm : m < 256) (hn : n < 256)
    (h : m < n ∨ m = n ∧ xs < ys) : UInt8.ofNat m :: xs < UInt8.ofNat n :: ys := by
  rw [List.cons_lt_cons_iff, UInt8.lt_iff_toNat_lt, UInt8.toNat_ofNat', UInt8.toNat_ofNat',
    Nat.mod_eq_of_lt hm, Nat.mod_eq_of_lt hn]
  rcases h with h | ⟨rfl, h⟩
  · exact Or.inl h
  · exact Or.inr ⟨rfl, h⟩

/-- Of two numbers in order, the greater has the greater quotient, or the greater remainder to the
same quotient. -/
theorem div_lt_or_mod_lt {m n b : Nat} (h : m < n) :
    m / b < n / b ∨ m / b = n / b ∧ m % b < n % b := by
  have hle : m / b ≤ n / b := Nat.div_le_div_right (Nat.le_of_lt h)
  rcases Nat.lt_or_eq_of_le hle with hlt | heq
  · exact Or.inl hlt
  · refine Or.inr ⟨heq, ?_⟩
    have hm := Nat.div_add_mod m b
    have hn := Nat.div_add_mod n b
    rw [heq] at hm
    omega

theorem continuation_lt {m n k : Nat} (h : m % place k < n % place k) (xs ys : List UInt8) :
    continuation m k ++ xs < continuation n k ++ ys := by
  induction k with
  | zero => simp [place, Nat.mod_one] at h
  | succ k ih =>
    have hbyte (v : Nat) : v / place k % 64 + 0x80 < 256 := by omega
    apply cons_lt_cons (hbyte m) (hbyte n)
    have hsplit := div_lt_or_mod_lt (b := place k) h
    simp only [place, Nat.mod_mul_right_div_self, Nat.mod_mul_right_mod] at hsplit
    rcases hsplit with hlt | ⟨heq, hlt⟩
    · exact Or.inl (Nat.add_lt_add_right hlt _)
    · exact Or.inr ⟨by rw [heq], ih hlt⟩

theorem encode_lt {c d : Char} (h : c < d) (xs ys : List UInt8) :
    String.utf8EncodeChar c ++ xs < String.utf8EncodeChar d ++ ys := by
  obtain ⟨j, hj, hcle, hclt, hc⟩ := encode_eq c
  obtain ⟨k, hk, hdle, hdlt, hd⟩ := encode_eq d
  have hcd : c.val.toNat < d.val.toNat := h
  rw [hc, hd]
  generalize c.val.toNat = m at *
  generalize d.val.toNat = n at *
  have hbyte {v k : Nat} (hk : k < 4) (hv : v < least (k + 1)) : v / place k + lead k < 256 :=
    Nat.lt_of_lt_of_le (first_lt hk hv) (Nat.le_trans (lead_mono 4 (by decide) _ hk) (by decide))
  apply cons_lt_cons (hbyte hj hclt) (hbyte hk hdlt)
  rcases Nat.lt_trichotomy j k with hjk | rfl | hkj
  · left
    calc m / place j + lead j < lead (j + 1) := first_lt hj hclt
      _ ≤ lead k := lead_mono k (Nat.lt_succ_of_lt hk) (j + 1) hjk
      _ ≤ n / place k + lead k := Nat.le_add_left _ _
  · rcases div_lt_or_mod_lt (b := place j) hcd with hlt | ⟨heq, hlt⟩
    · exact Or.inl (Nat.add_lt_add_right hlt _)
    · exact Or.inr ⟨by rw [heq], continuation_lt hlt xs ys⟩
  · have hleast : least (k + 1) ≤ least j := least_mono j (Nat.lt_succ_of_lt hj) (k + 1) hkj
    omega

theorem flatMap_encode_lt {cs ds : List Char} (h : cs < ds) :
    cs.flatMap String.utf8EncodeChar < ds.flatMap String.utf8EncodeChar := by
  induction cs generalizing ds with
  | nil =>
    cases ds with
    | nil => exact absurd h (List.lt_irrefl _)
    | cons d ds =>
      obtain ⟨k, _, _, _, hd⟩ := encode_eq d
      rw [List.flatMap_cons, hd]
      exact List.nil_lt_cons _ _
  | cons c cs ih =>
    cases ds with
    | nil => exact absurd h (List.not_lt_nil _)
    | cons d ds =>
      rw [List.flatMap_cons, List.flatMap_cons]
      rcases List.cons_lt_cons_iff.mp h with hlt | ⟨rfl, hlt⟩
      · exact encode_lt hlt _ _
      · exact List.append_left_lt (ih hlt)

theorem bytes_eq (s : String) : bytes s = s.toList.flatMap String.utf8EncodeChar := by
  rw [bytes, String.toUTF8, ← String.utf8Encode_toList, List.utf8Encode,
    List.toList_data_toByteArray]

theorem bytes_lt {s t : String} (h : s < t) : bytes s < bytes t := by
  rw [bytes_eq, bytes_eq]
  exact flatMap_encode_lt h

/-- Strings are in order exactly where their bytes are. -/
theorem bytes_lt_iff (s t : String) : bytes s < bytes t ↔ s < t := by
  constructor
  · intro h
    apply Decidable.byContradiction
    intro hst
    rcases List.le_iff_lt_or_eq.mp (List.not_lt.mp hst) with hts | heq
    · exact List.lt_asymm h (bytes_lt hts)
    · rw [String.toList_inj.mp heq] at h
      exact List.lt_irrefl _ h
  · exact bytes_lt

end TriStore.KeyOrder
