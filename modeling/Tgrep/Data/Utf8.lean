import Mathlib.Data.List.Basic
import Mathlib.Data.Nat.Notation

/-!
# Validating UTF-8

A byte string is validated sequence by sequence. Where it is not valid, the error says how far it
is, and how many bytes the maximal start of a sequence has that cannot go on; none if the string
ends within a sequence that could.

## Main definitions

* `Utf8.scan`: the sequence that a byte string begins with.
* `Utf8.fromUtf8`: how far a byte string is valid, and what stops it.
* `Utf8.Valid`, `Utf8.Text`: valid byte strings.
* `Utf8.standardDecode`: the decoder of the Encoding Standard, which replaces what is invalid.
* `Utf8.isBoundary`: the boundaries of the characters of a text.

## Main results

* `Utf8.fromUtf8_append`: validation goes on behind what is valid.
* `Utf8.fromUtf8_cases`: what an error says.
* `Utf8.Valid.append`, `Utf8.Valid.of_append`: valid byte strings end and begin at boundaries.
* `Utf8.Valid.of_ascii`: a byte of ASCII is one.
* `Utf8.standardDecode_char`, `Utf8.standardDecode_bad`: what is decoded, sequence by sequence.
-/

namespace Utf8

open List Option

/-! ## Sequences -/

/-- The sequence that a byte string begins with. -/
inductive Scan
  /-- A whole character. -/
  | char (n : ℕ)
  /-- Bytes that no character begins with, though all but the last of some character could. -/
  | bad (n : ℕ)
  /-- The string ends within the sequence. -/
  | truncated
  deriving DecidableEq

/-- The length of the sequence that a byte begins, zero if it begins none. -/
def width (first : UInt8) : ℕ :=
  if first < 0x80 then 1
  else if first < 0xC2 then 0
  else if first < 0xE0 then 2
  else if first < 0xF0 then 3
  else if first < 0xF5 then 4
  else 0

/-- The range of the bytes that continue a sequence. -/
def continuation : UInt8 × UInt8 := (0x80, 0xBF)

/-- The range of the second byte of a sequence. -/
def second (first : UInt8) : UInt8 × UInt8 :=
  if first = 0xE0 then (0xA0, 0xBF)
  else if first = 0xED then (0x80, 0x9F)
  else if first = 0xF0 then (0x90, 0xBF)
  else if first = 0xF4 then (0x80, 0x8F)
  else continuation

/-- The bytes of a sequence that are still to come, the next one in a range of its own. -/
def scanRest : ℕ → ℕ → UInt8 × UInt8 → List UInt8 → Scan
  | 0, seen, _, _ => .char seen
  | _ + 1, _, _, [] => .truncated
  | k + 1, seen, range, b :: bs =>
    if range.1 ≤ b ∧ b ≤ range.2 then scanRest k (seen + 1) continuation bs else .bad seen

variable {bytes bs more : List UInt8} {b : UInt8} {k seen n : ℕ} {range : UInt8 × UInt8}

/-- The sequence that a byte string begins with. -/
def scan : List UInt8 → Scan
  | [] => .truncated
  | first :: rest =>
    if width first = 0 then .bad 1 else scanRest (width first - 1) 1 (second first) rest

lemma width_le (first : UInt8) : width first ≤ 4 := by
  unfold width
  split_ifs <;> omega

/-- What is scanned behind the first byte. -/
lemma scanRest_cases (k seen : ℕ) (range : UInt8 × UInt8) (bs : List UInt8) :
    (scanRest k seen range bs = .char (seen + k) ∧ k ≤ bs.length) ∨
    (∃ n, scanRest k seen range bs = .bad (seen + n) ∧ n < k ∧ n < bs.length) ∨
    (scanRest k seen range bs = .truncated ∧ bs.length < k) := by
  induction k generalizing seen range bs with
  | zero => exact .inl ⟨rfl, Nat.zero_le _⟩
  | succ k ih =>
    cases bs with
    | nil => exact .inr (.inr ⟨rfl, Nat.succ_pos _⟩)
    | cons b bs =>
      rw [scanRest, length_cons]
      split_ifs with hrange
      · rcases ih (seen + 1) continuation bs with ⟨hscan, hle⟩ | ⟨n, hscan, hk, hn⟩ | ⟨hscan, hlt⟩
        · exact .inl ⟨hscan.trans (by rw [Nat.add_right_comm, Nat.add_assoc]), by omega⟩
        · refine .inr (.inl ⟨n + 1, hscan.trans ?_, by omega, by omega⟩)
          rw [Nat.add_right_comm, Nat.add_assoc]
        · exact .inr (.inr ⟨hscan, by omega⟩)
      · exact .inr (.inl ⟨0, rfl, Nat.succ_pos _, Nat.succ_pos _⟩)

/-- What is scanned does not change when bytes follow. -/
lemma scanRest_append (h : scanRest k seen range bs ≠ .truncated) (more : List UInt8) :
    scanRest k seen range (bs ++ more) = scanRest k seen range bs := by
  induction k generalizing seen range bs with
  | zero => rfl
  | succ k ih =>
    cases bs with
    | nil => exact absurd rfl h
    | cons b bs =>
      rw [cons_append, scanRest, scanRest]
      rw [scanRest] at h
      split_ifs at h ⊢ with hrange
      · exact ih h
      · rfl

/-- The bytes that are scanned decide about a character. -/
lemma scanRest_take (h : scanRest k seen range bs = .char n) (m : ℕ) (hm : k ≤ m) :
    scanRest k seen range (bs.take m) = .char n := by
  induction k generalizing seen range bs m with
  | zero => exact h
  | succ k ih =>
    cases bs with
    | nil => cases h
    | cons b bs =>
      obtain ⟨m, rfl⟩ : ∃ m', m = m' + 1 := ⟨m - 1, by omega⟩
      rw [take_succ_cons, scanRest]
      rw [scanRest] at h
      split_ifs at h ⊢ with hrange
      exact ih h m (by omega)

/-- A character is one to four bytes. -/
lemma scan_char (h : scan bs = .char n) : 0 < n ∧ n ≤ 4 ∧ n ≤ bs.length := by
  cases bs with
  | nil => cases h
  | cons first rest =>
    rw [scan] at h
    split_ifs at h with hwidth
    have hle := width_le first
    rcases scanRest_cases (width first - 1) 1 (second first) rest with
      ⟨hscan, hlen⟩ | ⟨m, hscan, -⟩ | ⟨hscan, -⟩
    · rw [hscan, Scan.char.injEq] at h
      rw [length_cons]
      omega
    · rw [hscan] at h
      cases h
    · rw [hscan] at h
      cases h

/-- Bytes that no character begins with are one to three. -/
lemma scan_bad (h : scan bs = .bad n) : 0 < n ∧ n ≤ 3 ∧ n ≤ bs.length := by
  cases bs with
  | nil => cases h
  | cons first rest =>
    rw [scan] at h
    rw [length_cons]
    split_ifs at h with hwidth
    · rw [Scan.bad.injEq] at h
      omega
    · have hle := width_le first
      rcases scanRest_cases (width first - 1) 1 (second first) rest with
        ⟨hscan, -⟩ | ⟨m, hscan, hm, hlen⟩ | ⟨hscan, -⟩
      · rw [hscan] at h
        cases h
      · rw [hscan, Scan.bad.injEq] at h
        omega
      · rw [hscan] at h
        cases h

/-- A sequence that the string ends within is at most three bytes. -/
lemma scan_truncated (h : scan bs = .truncated) : bs.length ≤ 3 := by
  cases bs with
  | nil => exact Nat.zero_le _
  | cons first rest =>
    rw [scan] at h
    rw [length_cons]
    split_ifs at h with hwidth
    have hle := width_le first
    rcases scanRest_cases (width first - 1) 1 (second first) rest with
      ⟨hscan, -⟩ | ⟨m, hscan, -⟩ | ⟨hscan, hlt⟩
    · rw [hscan] at h
      cases h
    · rw [hscan] at h
      cases h
    · omega

/-- What a byte string begins with does not change when bytes follow. -/
lemma scan_append (h : scan bs ≠ .truncated) (more : List UInt8) : scan (bs ++ more) = scan bs := by
  cases bs with
  | nil => exact absurd rfl h
  | cons first rest =>
    rw [cons_append, scan, scan]
    rw [scan] at h
    split_ifs at h ⊢ with hwidth
    · rfl
    · exact scanRest_append h more

/-- The bytes of a character are one. -/
lemma scan_take (h : scan bs = .char n) : scan (bs.take n) = .char n := by
  cases bs with
  | nil => cases h
  | cons first rest =>
    obtain ⟨hpos, -, -⟩ := scan_char h
    obtain ⟨m, rfl⟩ : ∃ m, n = m + 1 := ⟨n - 1, by omega⟩
    rw [scan] at h
    rw [take_succ_cons, scan]
    split_ifs at h ⊢ with hwidth
    refine scanRest_take h m ?_
    rcases scanRest_cases (width first - 1) 1 (second first) rest with
      ⟨hscan, -⟩ | ⟨i, hscan, -⟩ | ⟨hscan, -⟩
    · rw [hscan, Scan.char.injEq] at h
      omega
    · rw [hscan] at h
      cases h
    · rw [hscan] at h
      cases h

/-! ## Validation -/

/-- Why a byte string is not valid. -/
structure Error where
  /-- The bytes before are valid. -/
  validUpTo : ℕ
  /-- The number of the bytes that cannot begin a character, none if the string ends too soon. -/
  errorLen : Option ℕ
  deriving DecidableEq

/-- The error behind more bytes. -/
def Error.shift (n : ℕ) (e : Error) : Error := ⟨n + e.validUpTo, e.errorLen⟩

/-- Validate a byte string. -/
def fromUtf8 (bytes : List UInt8) : Option Error :=
  if _hempty : bytes = [] then none
  else
    match _hscan : scan bytes with
    | .char n => (fromUtf8 (bytes.drop n)).map (Error.shift n)
    | .bad n => some ⟨0, some n⟩
    | .truncated => some ⟨0, none⟩
termination_by bytes.length
decreasing_by
  have hchar := scan_char _hscan
  rw [length_drop]
  omega

variable {e : Error}

/-- The byte string is valid. -/
def Valid (bytes : List UInt8) : Prop := fromUtf8 bytes = none

instance (bytes : List UInt8) : Decidable (Valid bytes) := inferInstanceAs (Decidable (_ = _))

@[simp] lemma fromUtf8_nil : fromUtf8 [] = none := by
  rw [fromUtf8, dif_pos rfl]

@[simp] lemma valid_nil : Valid [] := fromUtf8_nil

lemma fromUtf8_char (h : scan bytes = .char n) :
    fromUtf8 bytes = (fromUtf8 (bytes.drop n)).map (Error.shift n) := by
  rw [fromUtf8, dif_neg (by rintro rfl; cases h)]
  split
  · rename_i m hscan
    rw [h, Scan.char.injEq] at hscan
    rw [hscan]
  · rename_i hscan
    rw [h] at hscan
    cases hscan
  · rename_i hscan
    rw [h] at hscan
    cases hscan

lemma fromUtf8_bad (h : scan bytes = .bad n) : fromUtf8 bytes = some ⟨0, some n⟩ := by
  rw [fromUtf8, dif_neg (by rintro rfl; cases h)]
  split
  · rename_i hscan
    rw [h] at hscan
    cases hscan
  · rename_i hscan
    rw [h, Scan.bad.injEq] at hscan
    rw [hscan]
  · rename_i hscan
    rw [h] at hscan
    cases hscan

lemma fromUtf8_truncated (hne : bytes ≠ []) (h : scan bytes = .truncated) :
    fromUtf8 bytes = some ⟨0, none⟩ := by
  rw [fromUtf8, dif_neg hne]
  split
  · rename_i hscan
    rw [h] at hscan
    cases hscan
  · rename_i hscan
    rw [h] at hscan
    cases hscan
  · rfl

/-- The induction over the characters of a valid byte string. -/
lemma Valid.rec_chars {motive : List UInt8 → Prop} (nil : motive [])
    (char : ∀ bytes n, scan bytes = .char n → Valid (bytes.drop n) → motive (bytes.drop n) →
      motive bytes) {bytes : List UInt8} (h : Valid bytes) : motive bytes := by
  fun_induction fromUtf8 bytes with
  | case1 => exact nil
  | case2 bytes hne n hscan ih =>
    have hrest : Valid (bytes.drop n) := by
      rw [Valid, fromUtf8_char hscan, map_eq_none_iff] at h
      exact h
    exact char bytes n hscan hrest (ih hrest)
  | case3 bytes hne n hscan =>
    rw [Valid, fromUtf8_bad hscan] at h
    cases h
  | case4 bytes hne hscan =>
    rw [Valid, fromUtf8_truncated hne hscan] at h
    cases h

lemma Error.shift_shift (m n : ℕ) (e : Error) : (e.shift n).shift m = e.shift (m + n) := by
  rw [shift, shift, shift, Nat.add_assoc]

/-- **Validation goes on behind what is valid.** -/
theorem fromUtf8_append (h : Valid bytes) (more : List UInt8) :
    fromUtf8 (bytes ++ more) = (fromUtf8 more).map (Error.shift bytes.length) := by
  refine Valid.rec_chars (motive := fun bytes =>
    fromUtf8 (bytes ++ more) = (fromUtf8 more).map (Error.shift bytes.length)) ?_ ?_ h
  · cases hmore : fromUtf8 more with
    | none => simp [hmore]
    | some e => simp [hmore, Error.shift]
  · intro bytes n hscan _ ih
    obtain ⟨-, -, hlen⟩ := scan_char hscan
    have hscan' : scan (bytes ++ more) = .char n := by
      rw [scan_append (by rw [hscan]; exact fun h => nomatch h), hscan]
    rw [fromUtf8_char hscan', drop_append_of_le_length hlen, ih, Option.map_map]
    congr 1
    funext e
    rw [Function.comp_apply, Error.shift_shift, length_drop, Nat.add_sub_cancel' hlen]

lemma Valid.append (h : Valid bytes) (hmore : Valid more) : Valid (bytes ++ more) := by
  rw [Valid, fromUtf8_append h, hmore]
  rfl

lemma Valid.of_append (h : Valid bytes) (hboth : Valid (bytes ++ more)) : Valid more := by
  rw [Valid, fromUtf8_append h, map_eq_none_iff] at hboth
  exact hboth

/-- One character is valid. -/
lemma valid_char (h : scan bytes = .char n) : Valid (bytes.take n) := by
  obtain ⟨-, -, hlen⟩ := scan_char h
  rw [Valid, fromUtf8_char (scan_take h), drop_eq_nil_of_le (by rw [length_take]; omega),
    fromUtf8_nil]
  rfl

/-- What an error says about the bytes behind what is valid. -/
def Error.Stops (e : Error) (rest : List UInt8) : Prop :=
  match e.errorLen with
  | some n => scan rest = .bad n
  | none => rest ≠ [] ∧ scan rest = .truncated

/-- **What an error says.** -/
theorem fromUtf8_cases (h : fromUtf8 bytes = some e) :
    e.validUpTo ≤ bytes.length ∧ Valid (bytes.take e.validUpTo) ∧
      e.Stops (bytes.drop e.validUpTo) := by
  fun_induction fromUtf8 bytes generalizing e with
  | case1 => cases h
  | case2 bytes hne n hscan ih =>
    obtain ⟨e', he', rfl⟩ := Option.map_eq_some_iff.mp h
    obtain ⟨hle, hvalid, hstops⟩ := ih he'
    obtain ⟨-, -, hlen⟩ := scan_char hscan
    rw [length_drop] at hle
    refine ⟨?_, ?_, ?_⟩
    · dsimp only [Error.shift]
      omega
    · rw [Error.shift, take_add]
      exact (valid_char hscan).append hvalid
    · rw [Error.shift, ← drop_drop]
      exact hstops
  | case3 bytes hne n hscan =>
    cases h
    exact ⟨Nat.zero_le _, by simp, hscan⟩
  | case4 bytes hne hscan =>
    cases h
    exact ⟨Nat.zero_le _, by simp, hne, hscan⟩

/-- An error stays one when bytes follow, unless the string ended too soon. -/
lemma not_valid_append (h : fromUtf8 bytes = some e)
    (hmore : e.errorLen.isSome = true ∨ more = []) : ¬ Valid (bytes ++ more) := by
  intro hvalid
  obtain ⟨-, hup, hstops⟩ := fromUtf8_cases h
  have hsplit : bytes ++ more =
      bytes.take e.validUpTo ++ (bytes.drop e.validUpTo ++ more) := by
    rw [← append_assoc, take_append_drop]
  have hrest : Valid (bytes.drop e.validUpTo ++ more) := hup.of_append (hsplit ▸ hvalid)
  unfold Error.Stops at hstops
  split at hstops
  · rename_i n hn
    have hscan : scan (bytes.drop e.validUpTo ++ more) = .bad n := by
      rw [scan_append (by rw [hstops]; exact fun h => nomatch h), hstops]
    rw [Valid, fromUtf8_bad hscan] at hrest
    cases hrest
  · rename_i hn
    rcases hmore with hsome | rfl
    · rw [hn] at hsome
      cases hsome
    · rw [append_nil, Valid, fromUtf8_truncated hstops.1 hstops.2] at hrest
      cases hrest

/-- The number of the bytes that an error is about. -/
def Error.replaced (e : Error) (length : ℕ) : ℕ := e.errorLen.getD (length - e.validUpTo)

/-- The bytes that an error is about are one to three. -/
lemma replaced_bounds (h : fromUtf8 bytes = some e) :
    0 < e.replaced bytes.length ∧ e.replaced bytes.length ≤ 3 ∧
      e.validUpTo + e.replaced bytes.length ≤ bytes.length := by
  obtain ⟨hle, -, hstops⟩ := fromUtf8_cases h
  unfold Error.Stops at hstops
  rw [Error.replaced]
  split at hstops
  · rename_i n hn
    obtain ⟨hpos, hthree, hlen⟩ := scan_bad hstops
    rw [hn, getD_some]
    rw [length_drop] at hlen
    omega
  · rename_i hn
    have hthree := scan_truncated hstops.2
    have hpos := length_pos_iff.mpr hstops.1
    rw [hn, getD_none]
    rw [length_drop] at hthree hpos
    omega

/-- A byte that begins no character of one byte is not below 128. -/
lemma le_of_width (h : width b ≠ 1) : 0x80 ≤ b := by
  by_contra hlt
  exact h (by rw [width, if_pos (UInt8.not_le.mp hlt)])

/-- The bytes of an unfinished sequence are not below 128. -/
lemma le_of_scanRest {k m : ℕ} (hrange : 0x80 ≤ range.1) :
    (∀ n, scanRest k m range bs = .bad n → ∀ b ∈ bs.take (n - m), 0x80 ≤ b) ∧
    (scanRest k m range bs = .truncated → ∀ b ∈ bs, 0x80 ≤ b) := by
  induction k generalizing m range bs with
  | zero =>
    refine ⟨fun n h => ?_, fun h => ?_⟩
    · cases h
    · cases h
  | succ k ih =>
    cases bs with
    | nil => exact ⟨fun n h b hb => by simp at hb, fun _ => forall_mem_nil _⟩
    | cons b bs =>
      rw [scanRest]
      split_ifs with hb
      · have hfirst : 0x80 ≤ b := UInt8.le_trans hrange hb.1
        obtain ⟨hbad, htruncated⟩ := @ih bs continuation (m + 1) (by decide)
        refine ⟨fun n h => ?_, fun h => forall_mem_cons.mpr ⟨hfirst, htruncated h⟩⟩
        rcases scanRest_cases k (m + 1) continuation bs with ⟨h', -⟩ | ⟨i, h', -⟩ | ⟨h', -⟩
        · rw [h'] at h
          cases h
        · have hn := h
          rw [h', Scan.bad.injEq] at hn
          have hsub : n - m = n - (m + 1) + 1 := by omega
          rw [hsub, take_succ_cons]
          exact forall_mem_cons.mpr ⟨hfirst, hbad n h⟩
        · rw [h'] at h
          cases h
      · refine ⟨fun n h => ?_, fun h => ?_⟩
        · rw [Scan.bad.injEq] at h
          rw [h, Nat.sub_self, take_zero]
          exact forall_mem_nil _
        · cases h

lemma le_second (b : UInt8) : 0x80 ≤ (second b).1 := by
  unfold second
  split_ifs <;> decide

/-- The bytes that are replaced are not below 128. -/
lemma le_of_stops {rest : List UInt8} (h : e.Stops rest) :
    ∀ b ∈ rest.take (e.errorLen.getD rest.length), 0x80 ≤ b := by
  unfold Error.Stops at h
  cases rest with
  | nil => simp
  | cons b bs =>
    split at h
    · rename_i n hn
      obtain ⟨hpos, -, -⟩ := scan_bad h
      rw [hn, getD_some, show n = n - 1 + 1 by omega, take_succ_cons]
      rw [scan] at h
      split_ifs at h with hwidth
      · rw [Scan.bad.injEq] at h
        rw [← h]
        exact forall_mem_cons.mpr ⟨le_of_width (by omega), forall_mem_nil _⟩
      · refine forall_mem_cons.mpr ⟨le_of_width fun hone => ?_,
          (le_of_scanRest (le_second b)).1 n h⟩
        rw [hone] at h
        cases h
    · rename_i hn
      obtain ⟨-, h⟩ := h
      rw [hn, getD_none, take_length]
      rw [scan] at h
      split_ifs at h with hwidth
      refine forall_mem_cons.mpr ⟨le_of_width fun hone => ?_, (le_of_scanRest (le_second b)).2 h⟩
      rw [hone] at h
      cases h

/-! ## The decoder of the Encoding Standard -/

/-- The character that is put for what is invalid. -/
def replacement : List UInt8 := [0xEF, 0xBF, 0xBD]

mutual

/-- The decoder of the Encoding Standard within a sequence: the number of bytes that are needed, the
range of the next one, and the bytes that were seen. A byte out of the range is read again. -/
def decodeRest : ℕ → UInt8 × UInt8 → List UInt8 → List UInt8 → List UInt8
  | 0, _, seen, bs => seen ++ standardDecode bs
  | _ + 1, _, _, [] => replacement
  | k + 1, range, seen, b :: bs =>
    if range.1 ≤ b ∧ b ≤ range.2 then decodeRest k continuation (seen ++ [b]) bs
    else replacement ++ standardDecode (b :: bs)
termination_by _ _ _ bs => (bs.length, 1)

/-- The decoder of the Encoding Standard between sequences. -/
def standardDecode : List UInt8 → List UInt8
  | [] => []
  | b :: bs =>
    if width b = 0 then replacement ++ standardDecode bs
    else decodeRest (width b - 1) (second b) [b] bs
termination_by bs => (bs.length, 0)

end

/-- What is decoded within a sequence. -/
lemma decodeRest_eq (k m : ℕ) (range : UInt8 × UInt8) (seen bs : List UInt8) :
    (∀ n, scanRest k m range bs = .char n →
      decodeRest k range seen bs = seen ++ bs.take k ++ standardDecode (bs.drop k)) ∧
    (∀ n, scanRest k m range bs = .bad n →
      decodeRest k range seen bs = replacement ++ standardDecode (bs.drop (n - m))) ∧
    (scanRest k m range bs = .truncated → decodeRest k range seen bs = replacement) := by
  induction k generalizing m range seen bs with
  | zero =>
    refine ⟨fun n _ => ?_, fun n h => ?_, fun h => ?_⟩
    · rw [decodeRest, take_zero, append_nil, drop_zero]
    · cases h
    · cases h
  | succ k ih =>
    cases bs with
    | nil =>
      refine ⟨fun n h => ?_, fun n h => ?_, fun _ => ?_⟩
      · cases h
      · cases h
      · rw [decodeRest]
    | cons b bs =>
      rw [scanRest, decodeRest]
      split_ifs with hrange
      · obtain ⟨hchar, hbad, htruncated⟩ := ih (m + 1) continuation (seen ++ [b]) bs
        refine ⟨fun n h => ?_, fun n h => ?_, htruncated⟩
        · rw [hchar n h, take_succ_cons, drop_succ_cons]
          simp only [append_assoc, singleton_append]
        · rcases scanRest_cases k (m + 1) continuation bs with ⟨h', -⟩ | ⟨i, h', -⟩ | ⟨h', -⟩
          · rw [h'] at h
            cases h
          · rw [hbad n h]
            rw [h', Scan.bad.injEq] at h
            obtain ⟨d, rfl⟩ : ∃ d, n = m + 1 + d := ⟨i, h.symm⟩
            rw [Nat.add_sub_cancel_left, show m + 1 + d - m = d + 1 by omega, drop_succ_cons]
          · rw [h'] at h
            cases h
      · refine ⟨fun n h => ?_, fun n h => ?_, fun h => ?_⟩
        · cases h
        · rw [Scan.bad.injEq] at h
          rw [h, Nat.sub_self, drop_zero]
        · cases h

/-- A character is decoded to itself. -/
lemma standardDecode_char (h : scan bytes = .char n) :
    standardDecode bytes = bytes.take n ++ standardDecode (bytes.drop n) := by
  obtain ⟨hpos, -, -⟩ := scan_char h
  cases bytes with
  | nil => cases h
  | cons b bs =>
    rw [scan] at h
    rw [standardDecode]
    split_ifs at h ⊢ with hwidth
    obtain ⟨m, rfl⟩ : ∃ m, n = m + 1 := ⟨n - 1, by omega⟩
    have hn : width b - 1 = m := by
      rcases scanRest_cases (width b - 1) 1 (second b) bs with ⟨h', -⟩ | ⟨i, h', -⟩ | ⟨h', -⟩
      · rw [h', Scan.char.injEq] at h
        omega
      · rw [h'] at h
        cases h
      · rw [h'] at h
        cases h
    rw [(decodeRest_eq (width b - 1) 1 (second b) [b] bs).1 _ h, hn, take_succ_cons, drop_succ_cons]
    rfl

/-- Bytes that no character begins with are replaced. -/
lemma standardDecode_bad (h : scan bytes = .bad n) :
    standardDecode bytes = replacement ++ standardDecode (bytes.drop n) := by
  obtain ⟨hpos, -, -⟩ := scan_bad h
  cases bytes with
  | nil => cases h
  | cons b bs =>
    obtain ⟨m, rfl⟩ : ∃ m, n = m + 1 := ⟨n - 1, by omega⟩
    rw [scan] at h
    rw [standardDecode, drop_succ_cons]
    split_ifs at h ⊢ with hwidth
    · rw [Scan.bad.injEq] at h
      obtain rfl : m = 0 := by omega
      rfl
    · rw [(decodeRest_eq (width b - 1) 1 (second b) [b] bs).2.1 _ h, Nat.add_sub_cancel]

/-- A sequence that the string ends within is replaced. -/
lemma standardDecode_truncated (hne : bytes ≠ [])
    (h : scan bytes = .truncated) : standardDecode bytes = replacement := by
  cases bytes with
  | nil => exact absurd rfl hne
  | cons b bs =>
    rw [scan] at h
    rw [standardDecode]
    split_ifs at h ⊢ with hwidth
    exact (decodeRest_eq (width b - 1) 1 (second b) [b] bs).2.2 h

/-- What is valid is decoded to itself. -/
lemma standardDecode_append (h : Valid bytes) (more : List UInt8) :
    standardDecode (bytes ++ more) = bytes ++ standardDecode more := by
  refine Valid.rec_chars (motive := fun bytes =>
    standardDecode (bytes ++ more) = bytes ++ standardDecode more) ?_ ?_ h
  · rfl
  · intro bytes n hscan _ ih
    obtain ⟨-, -, hlen⟩ := scan_char hscan
    have hscan' : scan (bytes ++ more) = .char n := by
      rw [scan_append (by rw [hscan]; exact fun h => nomatch h), hscan]
    rw [standardDecode_char hscan', take_append_of_le_length hlen,
      drop_append_of_le_length hlen, ih, ← append_assoc, take_append_drop]

/-- Bytes below 128 are valid. -/
lemma valid_ascii (h : ∀ b ∈ bytes, b < 0x80) : Valid bytes := by
  induction bytes with
  | nil => exact valid_nil
  | cons b bs ih =>
    obtain ⟨hb, hrest⟩ := forall_mem_cons.mp h
    have hwidth : width b = 1 := by rw [width, if_pos hb]
    have hscan : scan (b :: bs) = .char 1 := by
      rw [scan, hwidth, if_neg (by decide)]
      rfl
    rw [Valid, fromUtf8_char hscan, drop_succ_cons, drop_zero, ih hrest]
    rfl

/-! ## Texts and boundaries -/

/-- A text: a valid byte string. -/
structure Text where
  bytes : List UInt8
  valid : Valid bytes

/-- Whether a byte continues a character. -/
def isContinuation (b : UInt8) : Bool := 0x80 ≤ b && b < 0xC0

/-- Whether a character begins or the text ends at an offset. -/
def isBoundary (bytes : List UInt8) (i : ℕ) : Bool :=
  i = 0 || (if h : i < bytes.length then !isContinuation bytes[i] else i = bytes.length)

/-- No character begins with a byte that continues one. -/
lemma not_continuation_of_width {first : UInt8} (h : width first ≠ 0) :
    isContinuation first = false := by
  rw [isContinuation, Bool.and_eq_false_iff, decide_eq_false_iff_not, decide_eq_false_iff_not]
  by_contra hboth
  rw [not_or, not_not, not_not] at hboth
  refine h ?_
  rw [width, if_neg (UInt8.not_lt.mpr hboth.1), if_pos ?_]
  exact UInt8.lt_trans hboth.2 (by decide)

/-- A valid text does not begin within a character. -/
lemma Valid.head (h : Valid (b :: bs)) : isContinuation b = false := by
  refine not_continuation_of_width fun hwidth => ?_
  have hscan : scan (b :: bs) = .bad 1 := by rw [scan, if_pos hwidth]
  rw [Valid, fromUtf8_bad hscan] at h
  cases h

/-- What follows a text begins at a boundary, if it is valid. -/
lemma isBoundary_append (h : Valid more) : isBoundary (bytes ++ more) bytes.length = true := by
  rw [isBoundary]
  cases more with
  | nil => simp
  | cons b bs =>
    have hlt : bytes.length < (bytes ++ b :: bs).length := by simp
    rw [dif_pos hlt]
    simp [h.head]

/-- What a boundary is: the beginning, the end, or in front of a byte that continues nothing. -/
lemma isBoundary_iff {i : ℕ} :
    isBoundary bytes i = true ↔
      i = 0 ∨ i = bytes.length ∨ ∃ b, bytes[i]? = some b ∧ isContinuation b = false := by
  rw [isBoundary, Bool.or_eq_true, decide_eq_true_eq]
  refine or_congr_right ?_
  split_ifs with hlt
  · rw [getElem?_eq_getElem hlt, Bool.not_eq_true']
    constructor
    · exact fun h => .inr ⟨_, rfl, h⟩
    · rintro (h | ⟨b, hb, h⟩)
      · exact absurd h (Nat.ne_of_lt hlt)
      · rwa [some.inj hb]
  · rw [decide_eq_true_eq, getElem?_eq_none (Nat.le_of_not_lt hlt)]
    constructor
    · exact .inl
    · rintro (h | ⟨b, hb, -⟩)
      · exact h
      · cases hb

/-- A character does not go on with a byte of ASCII. -/
lemma scanRest_ascii (hrange : 0x80 ≤ range.1) (hb : b < 0x80) (hlen : bs.length < k) (n : ℕ) :
    scanRest k seen range (bs ++ b :: more) ≠ .char n := by
  induction k generalizing seen range bs with
  | zero => exact absurd hlen (Nat.not_lt_zero _)
  | succ k ih =>
    cases bs with
    | nil =>
      rw [nil_append, scanRest, if_neg]
      · exact Scan.noConfusion
      · intro h
        exact absurd (UInt8.lt_of_lt_of_le hb (UInt8.le_trans hrange h.1)) (UInt8.lt_irrefl _)
    | cons c bs =>
      rw [cons_append, scanRest]
      split_ifs
      · exact ih (by decide) (Nat.lt_of_succ_lt_succ hlen)
      · exact Scan.noConfusion

/-- **A byte of ASCII begins a character**, and ends the one before. -/
theorem Valid.of_ascii (h : Valid (bytes ++ b :: more)) (hb : b < 0x80) : Valid bytes := by
  refine Valid.rec_chars (motive := fun all => ∀ bytes, all = bytes ++ b :: more → Valid bytes)
    ?_ ?_ h bytes rfl
  · intro bytes heq
    simp at heq
  · rintro all n hscan - ih bytes rfl
    cases bytes with
    | nil => exact valid_nil
    | cons first rest =>
      obtain ⟨hpos, -, hlen⟩ := scan_char hscan
      by_cases hin : n ≤ (first :: rest).length
      · have hdrop := ih ((first :: rest).drop n) (drop_append_of_le_length hin)
        have hchar := valid_char hscan
        rw [take_append_of_le_length hin] at hchar
        rw [← take_append_drop n (first :: rest)]
        exact hchar.append hdrop
      · -- the byte would be within the character
        rw [cons_append, scan] at hscan
        split_ifs at hscan with hwidth
        rw [length_cons] at hin
        obtain ⟨hn, -⟩ | ⟨m, hm, -⟩ | ⟨ht, -⟩ :=
          scanRest_cases (width first - 1) 1 (second first) (rest ++ b :: more)
        · rw [hscan] at hn
          have hwhole : n = 1 + (width first - 1) := Scan.char.inj hn
          exact absurd hscan (scanRest_ascii (le_second first) hb (by omega) n)
        · rw [hscan] at hm
          cases hm
        · rw [hscan] at ht
          cases ht

/-- What is behind a byte of ASCII is valid. -/
lemma Valid.behind_ascii (h : Valid (bytes ++ b :: more)) (hb : b < 0x80) : Valid more := by
  have hhead : Valid (bytes ++ [b]) :=
    (h.of_ascii hb).append (valid_ascii fun c hc => mem_singleton.mp hc ▸ hb)
  rw [← singleton_append, ← append_assoc] at h
  exact hhead.of_append h

end Utf8
