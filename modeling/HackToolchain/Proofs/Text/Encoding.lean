import HackToolchain.Proofs.Assembly.Reading

/-! Characters and their bytes. A character of ASCII is one byte and every other has none of ASCII, so
that a class which does not tell the others apart can be tested byte by byte. -/
namespace HackToolchain.Text

open Assembly (byteChar toNat_byteChar)

/-- Whether a byte can only stand behind the first of a character. -/
def isContinuation (byte : UInt8) : Bool :=
  byte &&& 0xc0 = 0x80

theorem isContinuation_iff {byte : UInt8} :
    isContinuation byte ↔ 128 ≤ byte.toNat ∧ byte.toNat < 192 := by
  have all : ∀ n < 256, isContinuation (UInt8.ofNat n) ↔ 128 ≤ n ∧ n < 192 := by
    decide +kernel
  have one := all byte.toNat byte.toNat_lt
  rwa [UInt8.ofNat_toNat] at one

/-- A character of ASCII is one byte; of any other all bytes but the first continue it. -/
theorem utf8EncodeChar_cases (c : Char) :
    c.toNat < 128 ∧ String.utf8EncodeChar c = [UInt8.ofNat c.toNat] ∨
      128 ≤ c.toNat ∧ ∃ first others, String.utf8EncodeChar c = first :: others ∧
        192 ≤ first.toNat ∧ ∀ byte ∈ others, isContinuation byte := by
  have continuation (n : Nat) : isContinuation (UInt8.ofNat (n % 64 + 128)) := by
    rw [isContinuation_iff, UInt8.toNat_ofNat']
    omega
  have lead {n : Nat} (low : 192 ≤ n) (high : n < 256) : 192 ≤ (UInt8.ofNat n).toNat := by
    rw [UInt8.toNat_ofNat']
    omega
  change c.val.toNat < 128 ∧ _ ∨ 128 ≤ c.val.toNat ∧ _
  fun_cases String.utf8EncodeChar c with
  | case1 v small => exact .inl ⟨Nat.lt_succ_of_le small, rfl⟩
  | case2 v large | case3 v large | case4 v large =>
    refine .inr ⟨by omega, _, _, rfl, lead (by omega) (by omega), ?_⟩
    simp only [List.forall_mem_cons, continuation, true_and]
    exact nofun

theorem exists_bytes (c : Char) :
    ∃ first others, String.utf8EncodeChar c = first :: others ∧ isContinuation first = false ∧
      ∀ byte ∈ others, isContinuation byte := by
  rcases utf8EncodeChar_cases c with ⟨small, one⟩ | ⟨_, first, others, split, lead, continuing⟩
  · refine ⟨_, [], one, Bool.eq_false_of_not_eq_true fun marked => ?_, nofun⟩
    have low := (isContinuation_iff.mp marked).1
    rw [UInt8.toNat_ofNat'] at low
    omega
  · refine ⟨first, others, split, Bool.eq_false_of_not_eq_true fun marked => ?_, continuing⟩
    exact absurd (isContinuation_iff.mp marked).2 (Nat.not_lt.mpr lead)

/-- A class of characters to which the bytes of a character belong if it does. -/
def Bytewise (p : Char → Bool) : Prop :=
  ∀ c, ∀ byte ∈ String.utf8EncodeChar c, p (byteChar byte) = p c

/-- No byte of a character beyond ASCII is in a class of ASCII. -/
theorem bytewise_of_ascii {p : Char → Bool} (ascii : ∀ c, p c → c.toNat < 128) : Bytewise p := by
  have beyond {c : Char} (large : 128 ≤ c.toNat) : p c = false :=
    Bool.eq_false_of_not_eq_true fun holds => absurd (ascii c holds) (Nat.not_lt.mpr large)
  intro c byte member
  rcases utf8EncodeChar_cases c with ⟨small, one⟩ | ⟨large, first, others, split, lead, continuing⟩
  · rw [one, List.mem_singleton] at member
    have number : byte.toNat = c.toNat := by
      rw [member, UInt8.toNat_ofNat']
      omega
    rw [byteChar, number, Char.ofNat_toNat]
  · have large' : 128 ≤ (byteChar byte).toNat := by
      rw [toNat_byteChar]
      rw [split, List.mem_cons] at member
      rcases member with rfl | member
      · omega
      · exact (isContinuation_iff.mp (continuing byte member)).1
    rw [beyond large, beyond large']

theorem bytewise_isBlank : Bytewise isBlank := by
  apply bytewise_of_ascii
  intro c blank
  simp only [isBlank, Bool.or_eq_true, decide_eq_true_eq] at blank
  rcases blank with (((rfl | rfl) | rfl) | rfl) | rfl <;> decide

theorem bytewise_eq {c : Char} (ascii : c.toNat < 128) : Bytewise (· = c) :=
  bytewise_of_ascii fun _ same => of_decide_eq_true same ▸ ascii

theorem bytewise_ne {c : Char} (ascii : c.toNat < 128) : Bytewise (· ≠ c) := by
  intro d byte member
  have same := bytewise_eq ascii d byte member
  simp only [ne_eq, decide_not, same]

/-- The bytes of a text, those of each character behind those of the one before. -/
def encoded (text : List Char) : List UInt8 :=
  text.flatMap String.utf8EncodeChar

theorem encoded_cons (c : Char) (rest : List Char) :
    encoded (c :: rest) = String.utf8EncodeChar c ++ encoded rest :=
  List.flatMap_cons

theorem toList_toUTF8 (source : String) : source.toUTF8.data.toList = encoded source.toList := by
  rw [String.toUTF8_eq_toByteArray, ← String.utf8Encode_toList]
  exact List.toList_data_toByteArray

theorem count_encoded (text : List Char) : (encoded text).count 0x0a = text.count '\n' := by
  induction text with
  | nil => rfl
  | cons c rest ih =>
    rw [encoded_cons, List.count_append, ih]
    by_cases feed : c = '\n'
    · rw [feed, List.count_cons_self, Nat.add_comm]
      rfl
    · have none : 0x0a ∉ String.utf8EncodeChar c := by
        intro member
        have same := bytewise_eq (c := '\n') (by decide) c _ member
        simp [feed] at same
        contradiction
      rw [List.count_eq_zero.mpr none, List.count_cons_of_ne feed, Nat.zero_add]

/-- Only a slash has the byte of one. -/
theorem slash_of_encoded {text : List Char} {bytes : List UInt8}
    (split : encoded text = 0x2f :: bytes) : ∃ rest, text = '/' :: rest ∧ encoded rest = bytes := by
  cases text with
  | nil => contradiction
  | cons c rest =>
    obtain ⟨first, others, encoding, _⟩ := exists_bytes c
    rw [encoded_cons, encoding] at split
    obtain ⟨rfl, behind⟩ := List.cons.inj split
    have same := bytewise_eq (c := '/') (by decide) c _ (encoding ▸ List.mem_cons_self)
    have slash : decide (byteChar 0x2f = '/') = true := by decide
    obtain rfl : c = '/' := of_decide_eq_true (same.symm.trans slash)
    obtain ⟨_, rfl⟩ := List.cons.inj encoding
    exact ⟨rest, rfl, behind⟩

theorem takeWhile_dropWhile_encoded {p : Char → Bool} (bytewise : Bytewise p) (text : List Char) :
    (encoded text).takeWhile (p ∘ byteChar) = encoded (text.takeWhile p) ∧
      (encoded text).dropWhile (p ∘ byteChar) = encoded (text.dropWhile p) := by
  induction text with
  | nil => exact ⟨rfl, rfl⟩
  | cons c rest ih =>
    rw [encoded_cons]
    by_cases accepted : p c
    · have all : ∀ byte ∈ String.utf8EncodeChar c, (p ∘ byteChar) byte = true := by
        intro byte member
        rw [Function.comp_apply, bytewise c byte member, accepted]
      rw [List.takeWhile_append_of_pos all, List.dropWhile_append_of_pos all, ih.1, ih.2,
        List.takeWhile_cons_of_pos accepted, List.dropWhile_cons_of_pos accepted]
      exact ⟨rfl, rfl⟩
    · obtain ⟨first, others, encoding, _⟩ := exists_bytes c
      have refused : ¬ (p ∘ byteChar) first = true := by
        rwa [Function.comp_apply, bytewise c first (encoding ▸ List.mem_cons_self)]
      rw [List.takeWhile_cons_of_neg accepted, List.dropWhile_cons_of_neg accepted, encoding,
        List.cons_append, List.takeWhile_cons_of_neg refused, List.dropWhile_cons_of_neg refused,
        encoded_cons, encoding]
      exact ⟨rfl, rfl⟩

end HackToolchain.Text
