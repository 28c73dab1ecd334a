import Mathlib.Tactic

/-!
# Decoding UTF-8

The bytes are cut into characters and malformed pieces. A malformed piece is the
longest start of a character that is found, and at least one byte. The strict
decoder refuses malformed pieces, the lenient one writes U+FFFD for each.
-/
namespace ExecutionEngine.Utf8

/-- What a leading byte of more than one byte announces: the number of bytes that
follow, the bounds of the first of them, and the bits of the character. -/
structure Lead where
  following : ℕ
  low : ℕ
  high : ℕ
  bits : ℕ

def lead (b : ℕ) : Option Lead :=
  if 0xC2 ≤ b ∧ b ≤ 0xDF then some ⟨1, 0x80, 0xBF, b - 0xC0⟩
  else if b = 0xE0 then some ⟨2, 0xA0, 0xBF, 0⟩
  else if b = 0xED then some ⟨2, 0x80, 0x9F, 0x0D⟩
  else if 0xE1 ≤ b ∧ b ≤ 0xEF then some ⟨2, 0x80, 0xBF, b - 0xE0⟩
  else if b = 0xF0 then some ⟨3, 0x90, 0xBF, 0⟩
  else if 0xF1 ≤ b ∧ b ≤ 0xF3 then some ⟨3, 0x80, 0xBF, b - 0xF0⟩
  else if b = 0xF4 then some ⟨3, 0x80, 0x8F, 4⟩
  else none

/-- The rest of a character, and the bytes after it. -/
def follow : Lead → List UInt8 → Option ℕ × List UInt8
  | ⟨0, _, _, bits⟩, bytes => (some bits, bytes)
  | ⟨_ + 1, _, _, _⟩, [] => (none, [])
  | ⟨n + 1, low, high, bits⟩, b :: bytes =>
    if low ≤ b.toNat ∧ b.toNat ≤ high then
      follow ⟨n, 0x80, 0xBF, 64 * bits + (b.toNat - 0x80)⟩ bytes
    else (none, b :: bytes)

def codePoint (n : ℕ) : Option (Fin 0x110000) := if h : n < 0x110000 then some ⟨n, h⟩ else none

/-- At most the given number of pieces. -/
def pieces : ℕ → List UInt8 → List (Option (Fin 0x110000))
  | 0, _ => []
  | _ + 1, [] => []
  | n + 1, b :: bytes =>
    if b.toNat < 0x80 then codePoint b.toNat :: pieces n bytes
    else
      match lead b.toNat with
      | none => none :: pieces n bytes
      | some l => (follow l bytes).1.bind codePoint :: pieces n (follow l bytes).2

/-- `bytes.decode()`; `none` where it raises `UnicodeDecodeError`. -/
def decode (bytes : List UInt8) : Option (List (Fin 0x110000)) :=
  (pieces bytes.length bytes).mapM id

/-- `bytes.decode(errors="replace")` -/
def decodeReplace (bytes : List UInt8) : List (Fin 0x110000) :=
  (pieces bytes.length bytes).map (·.getD 0xFFFD)

theorem length_follow (l : Lead) (bytes : List UInt8) :
    (follow l bytes).2.length ≤ bytes.length := by
  fun_induction follow l bytes with
  | case3 n low high bits b bytes hin ih => exact ih.trans (Nat.le_succ _)
  | _ => simp

theorem pieces_of_le {n m : ℕ} {bytes : List UInt8} (hn : bytes.length ≤ n)
    (hm : bytes.length ≤ m) : pieces n bytes = pieces m bytes := by
  induction n generalizing m bytes with
  | zero =>
    obtain rfl := List.eq_nil_of_length_eq_zero (Nat.le_zero.mp hn)
    cases m <;> rfl
  | succ n ih =>
    cases bytes with
    | nil => cases m <;> rfl
    | cons b bytes =>
      obtain ⟨m, rfl⟩ : ∃ k, m = k + 1 := ⟨m - 1, by rw [List.length_cons] at hm; omega⟩
      have hn : bytes.length ≤ n := Nat.le_of_succ_le_succ hn
      have hm : bytes.length ≤ m := Nat.le_of_succ_le_succ hm
      have hrest : ∀ l, pieces n (follow l bytes).2 = pieces m (follow l bytes).2 :=
        fun l => ih ((length_follow l bytes).trans hn) ((length_follow l bytes).trans hm)
      simp only [pieces, ih hn hm, hrest]

theorem lead_low {b : ℕ} {l : Lead} (h : lead b = some l) : 0x80 ≤ l.low := by
  unfold lead at h
  split_ifs at h <;> obtain rfl := Option.some.inj h <;> norm_num

section
variable {b : UInt8} (hb : b.toNat < 0x80) (rest : List UInt8)
include hb

/-- An ASCII byte ends a character that has begun. -/
theorem follow_append {l : Lead} (hl : 0x80 ≤ l.low) (bytes : List UInt8) :
    follow l (bytes ++ b :: rest) = ((follow l bytes).1, (follow l bytes).2 ++ b :: rest) := by
  induction bytes generalizing l with
  | nil =>
    obtain ⟨_ | n, low, high, bits⟩ := l
    · rfl
    · have hout : ¬ (low ≤ b.toNat ∧ b.toNat ≤ high) := by
        dsimp only at hl
        omega
      simp only [List.nil_append, follow, if_neg hout]
  | cons c bytes ih =>
    obtain ⟨_ | n, low, high, bits⟩ := l
    · rfl
    · simp only [List.cons_append, follow]
      split_ifs with hin
      · exact ih le_rfl
      · rfl

theorem pieces_append {n : ℕ} {bytes : List UInt8} (h : bytes.length ≤ n) :
    pieces (n + (rest.length + 1)) (bytes ++ b :: rest) =
      pieces n bytes ++ pieces (rest.length + 1) (b :: rest) := by
  induction n generalizing bytes with
  | zero =>
    obtain rfl := List.eq_nil_of_length_eq_zero (Nat.le_zero.mp h)
    simp [pieces]
  | succ n ih =>
    cases bytes with
    | nil =>
      rw [List.nil_append, pieces, List.nil_append]
      exact pieces_of_le (by simp) (by simp)
    | cons c bytes =>
      have h : bytes.length ≤ n := Nat.le_of_succ_le_succ h
      rw [Nat.succ_add, List.cons_append, pieces, pieces]
      split
      · rw [ih h, List.cons_append]
      · split
        · rw [ih h, List.cons_append]
        · rename_i l hlead
          rw [follow_append hb rest (lead_low hlead), ih ((length_follow l bytes).trans h),
            List.cons_append]

/-- Whatever stands before an ASCII byte has no effect on what follows. -/
theorem decodeReplace_append (bytes : List UInt8) :
    decodeReplace (bytes ++ b :: rest) = decodeReplace bytes ++ decodeReplace (b :: rest) := by
  unfold decodeReplace
  rw [List.length_append, List.length_cons, pieces_append hb rest le_rfl, List.map_append]

end

/-- The bytes of an ASCII text. -/
def asciiBytes (s : List (Fin 0x110000)) : List UInt8 := s.map fun c => UInt8.ofNat c.val

theorem pieces_asciiBytes {s : List (Fin 0x110000)} (h : ∀ c ∈ s, c.val < 0x80) :
    pieces s.length (asciiBytes s) = s.map some := by
  induction s with
  | nil => rfl
  | cons c s ih =>
    have hc : c.val < 0x80 := h c List.mem_cons_self
    have hbyte : (UInt8.ofNat c.val).toNat = c.val := by
      rw [UInt8.toNat_ofNat', Nat.mod_eq_of_lt (by omega)]
    have hpoint : codePoint c.val = some c := dif_pos c.isLt
    rw [List.length_cons, asciiBytes, List.map_cons, pieces, hbyte, if_pos hc, hpoint]
    exact congrArg (List.cons (some c)) (ih fun d hd => h d (List.mem_cons_of_mem c hd))

theorem decodeReplace_asciiBytes {s : List (Fin 0x110000)} (h : ∀ c ∈ s, c.val < 0x80) :
    decodeReplace (asciiBytes s) = s := by
  unfold decodeReplace
  rw [asciiBytes, List.length_map, ← asciiBytes, pieces_asciiBytes h, List.map_map]
  exact List.map_id s

theorem decode_asciiBytes {s : List (Fin 0x110000)} (h : ∀ c ∈ s, c.val < 0x80) :
    decode (asciiBytes s) = some s := by
  have hall : ∀ t : List (Fin 0x110000), (t.map some).mapM id = some t := by
    intro t
    induction t with
    | nil => rfl
    | cons c t ih =>
      rw [List.map_cons, List.mapM_cons, ih]
      rfl
  rw [decode, asciiBytes, List.length_map, ← asciiBytes, pieces_asciiBytes h, hall]

/-- An ASCII text after other bytes. -/
theorem decodeReplace_append_asciiBytes (bytes : List UInt8) {s : List (Fin 0x110000)}
    (h : ∀ c ∈ s, c.val < 0x80) :
    decodeReplace (bytes ++ asciiBytes s) = decodeReplace bytes ++ s := by
  cases s with
  | nil => simp [asciiBytes]
  | cons c s =>
    have hc : (UInt8.ofNat c.val).toNat < 0x80 := by
      have hlt := h c List.mem_cons_self
      rw [UInt8.toNat_ofNat']
      omega
    calc decodeReplace (bytes ++ asciiBytes (c :: s))
        = decodeReplace bytes ++ decodeReplace (asciiBytes (c :: s)) :=
          decodeReplace_append hc _ bytes
      _ = decodeReplace bytes ++ c :: s := by rw [decodeReplace_asciiBytes h]

/-- A character that has begun either goes on beyond the end, or the bytes after the end
have no effect on it. -/
theorem follow_cut (l : Lead) (bytes more : List UInt8) :
    follow l bytes = (none, []) ∨
      follow l (bytes ++ more) = ((follow l bytes).1, (follow l bytes).2 ++ more) := by
  fun_induction follow l bytes with
  | case1 low high bits bytes => exact .inr (by rw [follow])
  | case2 n low high bits => exact .inl rfl
  | case3 n low high bits b bytes hin ih =>
    rw [List.cons_append, follow, if_pos hin]
    exact ih
  | case4 n low high bits b bytes hout =>
    rw [List.cons_append, follow, if_neg hout]
    exact .inr rfl

theorem pieces_cut {n : ℕ} {bytes : List UInt8} (h : bytes.length ≤ n) (more : List UInt8) :
    ∃ whole cut, pieces n bytes = whole ++ cut ∧
      whole <+: pieces (n + more.length) (bytes ++ more) ∧ ∀ p ∈ cut, p = none := by
  induction n generalizing bytes with
  | zero =>
    obtain rfl := List.eq_nil_of_length_eq_zero (Nat.le_zero.mp h)
    exact ⟨[], [], rfl, List.nil_prefix, by simp⟩
  | succ n ih =>
    cases bytes with
    | nil => exact ⟨[], [], rfl, List.nil_prefix, by simp⟩
    | cons b bytes =>
      have h : bytes.length ≤ n := Nat.le_of_succ_le_succ h
      have hcons : ∀ (p : Option (Fin 0x110000)) (rest : List UInt8), rest.length ≤ n →
          ∃ whole cut, p :: pieces n rest = whole ++ cut ∧
            whole <+: p :: pieces (n + more.length) (rest ++ more) ∧ ∀ q ∈ cut, q = none := by
        intro p rest hrest
        obtain ⟨whole, cut, heq, hwhole, hcut⟩ := ih hrest
        refine ⟨p :: whole, cut, by rw [heq, List.cons_append], ?_, hcut⟩
        exact (List.prefix_cons_inj p).mpr hwhole
      rw [Nat.succ_add, List.cons_append, pieces, pieces]
      split
      · exact hcons _ bytes h
      · split
        · exact hcons _ bytes h
        · rename_i l _
          obtain hends | hgoes := follow_cut l bytes more
          · refine ⟨[], _, rfl, List.nil_prefix, ?_⟩
            rw [hends]
            cases n <;> simp [pieces]
          · rw [hgoes]
            exact hcons _ _ ((length_follow l bytes).trans h)

/-- Bytes of which some are missing at the end are decoded as before, up to the character
that is cut. -/
theorem decodeReplace_cut (bytes more : List UInt8) :
    ∃ whole cut, decodeReplace bytes = whole ++ cut ∧
      whole <+: decodeReplace (bytes ++ more) ∧ ∀ c ∈ cut, c = 0xFFFD := by
  obtain ⟨whole, cut, heq, hwhole, hcut⟩ := pieces_cut (le_refl bytes.length) more
  unfold decodeReplace
  refine ⟨whole.map (·.getD 0xFFFD), cut.map (·.getD 0xFFFD), ?_, ?_, fun c hc => ?_⟩
  · rw [heq, List.map_append]
  · rw [List.length_append]
    exact hwhole.map _
  · obtain ⟨p, hp, rfl⟩ := List.mem_map.mp hc
    rw [hcut p hp]
    rfl

/-- An ASCII text before other bytes. -/
theorem decodeReplace_asciiBytes_append {s : List (Fin 0x110000)} (h : ∀ c ∈ s, c.val < 0x80)
    (bytes : List UInt8) : decodeReplace (asciiBytes s ++ bytes) = s ++ decodeReplace bytes := by
  induction s with
  | nil => rfl
  | cons c s ih =>
    have hc : c.val < 0x80 := h c List.mem_cons_self
    have hbyte : (UInt8.ofNat c.val).toNat = c.val := by
      rw [UInt8.toNat_ofNat', Nat.mod_eq_of_lt (by omega)]
    have hpoint : codePoint c.val = some c := dif_pos c.isLt
    have hrest := ih fun d hd => h d (List.mem_cons_of_mem c hd)
    unfold decodeReplace at hrest ⊢
    rw [asciiBytes, List.map_cons, List.cons_append, List.length_cons, pieces, hbyte, if_pos hc,
      hpoint, List.map_cons, ← asciiBytes, hrest]
    rfl

end ExecutionEngine.Utf8
