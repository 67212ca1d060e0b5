import Copione.Text.Utf8
/-!
# Lossy decoding of whole byte sequences

What a sequence of bytes says as a text: the characters whose encodings stand in it, and one
replacement character for each maximal ill-formed sequence. `Decodes` says so without an
algorithm; `decode` takes the characters off one by one, and the two agree.
-/
namespace Copione.Utf8

def IsContinuation (b : UInt8) : Prop := 0x80 ≤ b ∧ b ≤ 0xBF

private theorem isContinuation_iff {b : UInt8} :
    IsContinuation b ↔ 0x80 ≤ b.toNat ∧ b.toNat ≤ 0xBF := by
  simp [IsContinuation, UInt8.le_iff_toNat_le]

def addBits (bits : Nat) (b : UInt8) : Nat := bits * 64 + b.toNat % 64

private theorem val_ofNat {n : Nat} (h : n.isValidChar) : (Char.ofNat n).val.toNat = n := by
  rw [Char.ofNat, dif_pos h]
  rfl

private theorem byte_eq_ofNat {b : UInt8} {n : Nat} (h : n = b.toNat) : UInt8.ofNat n = b := by
  simp [h]

private theorem encode_one {b : UInt8} (hb : b.toNat < 0x80) :
    String.utf8EncodeChar (Char.ofNat b.toNat) = [b] := by
  have hv := val_ofNat (n := b.toNat) (Or.inl (by omega))
  simp only [String.utf8EncodeChar, hv]
  rw [if_pos (by omega), byte_eq_ofNat rfl]

private theorem encode_two {b x : UInt8} (hb : 0xC2 ≤ b.toNat ∧ b.toNat < 0xE0)
    (hx : 0x80 ≤ x.toNat ∧ x.toNat ≤ 0xBF) :
    String.utf8EncodeChar (Char.ofNat (b.toNat % 32 * 64 + x.toNat % 64)) = [b, x] := by
  have hv := val_ofNat (n := b.toNat % 32 * 64 + x.toNat % 64) (Or.inl (by omega))
  simp only [String.utf8EncodeChar, hv]
  rw [if_neg (by omega), if_pos (by omega), byte_eq_ofNat (b := b) (by omega),
    byte_eq_ofNat (b := x) (by omega)]

private theorem encode_three {b x y : UInt8} (hb : 0xE0 ≤ b.toNat ∧ b.toNat < 0xF0)
    (hx : 0x80 ≤ x.toNat ∧ x.toNat ≤ 0xBF) (hy : 0x80 ≤ y.toNat ∧ y.toNat ≤ 0xBF)
    (hlong : b.toNat = 0xE0 → 0xA0 ≤ x.toNat) (hsurrogate : b.toNat = 0xED → x.toNat ≤ 0x9F) :
    String.utf8EncodeChar
      (Char.ofNat ((b.toNat % 16 * 64 + x.toNat % 64) * 64 + y.toNat % 64)) = [b, x, y] := by
  have hvalid : Nat.isValidChar ((b.toNat % 16 * 64 + x.toNat % 64) * 64 + y.toNat % 64) := by
    simp only [Nat.isValidChar]
    omega
  simp only [String.utf8EncodeChar, val_ofNat hvalid]
  rw [if_neg (by omega), if_neg (by omega), if_pos (by omega), byte_eq_ofNat (b := b) (by omega),
    byte_eq_ofNat (b := x) (by omega), byte_eq_ofNat (b := y) (by omega)]

private theorem encode_four {b x y z : UInt8} (hb : 0xF0 ≤ b.toNat ∧ b.toNat < 0xF5)
    (hx : 0x80 ≤ x.toNat ∧ x.toNat ≤ 0xBF) (hy : 0x80 ≤ y.toNat ∧ y.toNat ≤ 0xBF)
    (hz : 0x80 ≤ z.toNat ∧ z.toNat ≤ 0xBF)
    (hlong : b.toNat = 0xF0 → 0x90 ≤ x.toNat) (hlast : b.toNat = 0xF4 → x.toNat ≤ 0x8F) :
    String.utf8EncodeChar (Char.ofNat
      (((b.toNat % 8 * 64 + x.toNat % 64) * 64 + y.toNat % 64) * 64 + z.toNat % 64)) =
      [b, x, y, z] := by
  have hvalid : Nat.isValidChar
      (((b.toNat % 8 * 64 + x.toNat % 64) * 64 + y.toNat % 64) * 64 + z.toNat % 64) := by
    simp only [Nat.isValidChar]
    omega
  simp only [String.utf8EncodeChar, val_ofNat hvalid]
  rw [if_neg (by omega), if_neg (by omega), if_neg (by omega), byte_eq_ofNat (b := b) (by omega),
    byte_eq_ofNat (b := x) (by omega), byte_eq_ofNat (b := y) (by omega),
    byte_eq_ofNat (b := z) (by omega)]

private theorem lead?_cases {b : UInt8} {l : Lead} (c : UInt8) (h : lead? b = some l) :
    (l.tail = 0 ∧ l.bits = b.toNat % 32 ∧ (0xC2 ≤ b.toNat ∧ b.toNat < 0xE0) ∧
      (l.low ≤ c ∧ c ≤ l.high ↔ 0x80 ≤ c.toNat ∧ c.toNat ≤ 0xBF)) ∨
    (l.tail = 1 ∧ l.bits = b.toNat % 16 ∧ (0xE0 ≤ b.toNat ∧ b.toNat < 0xF0) ∧
      (l.low ≤ c ∧ c ≤ l.high ↔ (0x80 ≤ c.toNat ∧ c.toNat ≤ 0xBF) ∧
        (b.toNat = 0xE0 → 0xA0 ≤ c.toNat) ∧ (b.toNat = 0xED → c.toNat ≤ 0x9F))) ∨
    (l.tail = 2 ∧ l.bits = b.toNat % 8 ∧ (0xF0 ≤ b.toNat ∧ b.toNat < 0xF5) ∧
      (l.low ≤ c ∧ c ≤ l.high ↔ (0x80 ≤ c.toNat ∧ c.toNat ≤ 0xBF) ∧
        (b.toNat = 0xF0 → 0x90 ≤ c.toNat) ∧ (b.toNat = 0xF4 → c.toNat ≤ 0x8F))) := by
  simp only [lead?, UInt8.lt_iff_toNat_lt, beq_iff_eq, ← UInt8.toNat_inj, UInt8.reduceToNat] at h
  repeat' split at h
  all_goals cases h
  all_goals (simp [UInt8.le_iff_toNat_le]; omega)

/-- A byte sequence of more than one byte in the ranges of the table. -/
structure IsSequence (bytes : List UInt8) (b x : UInt8) (l : Lead) (tail : List UInt8) : Prop where
  bytes_eq : bytes = b :: x :: tail
  lead_eq : lead? b = some l
  range : l.low ≤ x ∧ x ≤ l.high
  length_eq : tail.length = l.tail
  continues : ∀ y ∈ tail, IsContinuation y

private theorem IsSequence.encode {bytes tail : List UInt8} {b x : UInt8} {l : Lead}
    (h : IsSequence bytes b x l tail) :
    String.utf8EncodeChar (Char.ofNat (tail.foldl addBits (addBits l.bits x))) = bytes := by
  have htail := h.continues
  simp only [isContinuation_iff] at htail
  rw [h.bytes_eq]
  rcases lead?_cases x h.lead_eq with ⟨ht, hbits, hb, hrange⟩ | ⟨ht, hbits, hb, hrange⟩ |
    ⟨ht, hbits, hb, hrange⟩
  · obtain rfl := List.length_eq_zero_iff.mp (h.length_eq.trans ht)
    rw [hbits]
    exact encode_two hb (hrange.mp h.range)
  · obtain ⟨y, rfl⟩ := List.length_eq_one_iff.mp (h.length_eq.trans ht)
    obtain ⟨hx, hlong, hsurrogate⟩ := hrange.mp h.range
    rw [hbits]
    exact encode_three hb hx (htail y (by simp)) hlong hsurrogate
  · obtain ⟨y, z, rfl⟩ : ∃ y z, tail = [y, z] := by
      match tail, h.length_eq.trans ht with
      | [y, z], _ => exact ⟨y, z, rfl⟩
    obtain ⟨hx, hlong, hlast⟩ := hrange.mp h.range
    rw [hbits]
    exact encode_four hb hx (htail y (by simp)) (htail z (by simp)) hlong hlast

private theorem lead?_isSome {b : UInt8} (h : 0xC2 ≤ b.toNat ∧ b.toNat < 0xF5) :
    ∃ l, lead? b = some l := by
  simp only [lead?, UInt8.lt_iff_toNat_lt, beq_iff_eq, ← UInt8.toNat_inj, UInt8.reduceToNat]
  repeat' split
  all_goals first | exact ⟨_, rfl⟩ | omega

private theorem isSequence_two {b x : UInt8} (hb : 0xC2 ≤ b.toNat ∧ b.toNat < 0xE0)
    (hx : 0x80 ≤ x.toNat ∧ x.toNat ≤ 0xBF) : ∃ l, IsSequence [b, x] b x l [] := by
  obtain ⟨l, hl⟩ := lead?_isSome (b := b) (by omega)
  rcases lead?_cases x hl with ⟨ht, -, -, hrange⟩ | ⟨-, -, hb', -⟩ | ⟨-, -, hb', -⟩
  · exact ⟨l, rfl, hl, hrange.mpr hx, ht.symm, by simp⟩
  · omega
  · omega

private theorem isSequence_three {b x y : UInt8} (hb : 0xE0 ≤ b.toNat ∧ b.toNat < 0xF0)
    (hx : 0x80 ≤ x.toNat ∧ x.toNat ≤ 0xBF) (hy : 0x80 ≤ y.toNat ∧ y.toNat ≤ 0xBF)
    (hlong : b.toNat = 0xE0 → 0xA0 ≤ x.toNat) (hsurrogate : b.toNat = 0xED → x.toNat ≤ 0x9F) :
    ∃ l, IsSequence [b, x, y] b x l [y] := by
  obtain ⟨l, hl⟩ := lead?_isSome (b := b) (by omega)
  rcases lead?_cases x hl with ⟨-, -, hb', -⟩ | ⟨ht, -, -, hrange⟩ | ⟨-, -, hb', -⟩
  · omega
  · exact ⟨l, rfl, hl, hrange.mpr ⟨hx, hlong, hsurrogate⟩, ht.symm,
      by simpa [isContinuation_iff] using hy⟩
  · omega

private theorem isSequence_four {b x y z : UInt8} (hb : 0xF0 ≤ b.toNat ∧ b.toNat < 0xF5)
    (hx : 0x80 ≤ x.toNat ∧ x.toNat ≤ 0xBF) (hy : 0x80 ≤ y.toNat ∧ y.toNat ≤ 0xBF)
    (hz : 0x80 ≤ z.toNat ∧ z.toNat ≤ 0xBF)
    (hlong : b.toNat = 0xF0 → 0x90 ≤ x.toNat) (hlast : b.toNat = 0xF4 → x.toNat ≤ 0x8F) :
    ∃ l, IsSequence [b, x, y, z] b x l [y, z] := by
  obtain ⟨l, hl⟩ := lead?_isSome (b := b) (by omega)
  rcases lead?_cases x hl with ⟨-, -, hb', -⟩ | ⟨-, -, hb', -⟩ | ⟨ht, -, -, hrange⟩
  · omega
  · omega
  · exact ⟨l, rfl, hl, hrange.mpr ⟨hx, hlong, hlast⟩, ht.symm,
      by simpa [isContinuation_iff] using ⟨hy, hz⟩⟩

/-- An encoding is a single byte or a sequence in the ranges of the table. -/
private theorem encode_cases (c : Char) :
    (∃ b : UInt8, b.toNat < 0x80 ∧ String.utf8EncodeChar c = [b]) ∨
      ∃ b x l tail, IsSequence (String.utf8EncodeChar c) b x l tail := by
  have hvalid : c.val.toNat < 0xD800 ∨ 0xDFFF < c.val.toNat ∧ c.val.toNat < 0x110000 := c.valid
  have hbyte (n : Nat) (h : n < 256) : (UInt8.ofNat n).toNat = n := by simp [Nat.mod_eq_of_lt h]
  simp only [String.utf8EncodeChar]
  generalize c.val.toNat = v at hvalid
  split
  · exact .inl ⟨_, by rw [hbyte _ (by omega)]; omega, rfl⟩
  right
  split
  · obtain ⟨l, h⟩ := isSequence_two (b := UInt8.ofNat (v / 64 % 32 + 192))
      (x := UInt8.ofNat (v % 64 + 128))
      (by rw [hbyte _ (by omega)]; omega) (by rw [hbyte _ (by omega)]; omega)
    exact ⟨_, _, l, _, h⟩
  split
  · obtain ⟨l, h⟩ := isSequence_three (b := UInt8.ofNat (v / 4096 % 16 + 224))
      (x := UInt8.ofNat (v / 64 % 64 + 128)) (y := UInt8.ofNat (v % 64 + 128))
      (by rw [hbyte _ (by omega)]; omega) (by rw [hbyte _ (by omega)]; omega)
      (by rw [hbyte _ (by omega)]; omega)
      (by rw [hbyte _ (by omega), hbyte _ (by omega)]; omega)
      (by rw [hbyte _ (by omega), hbyte _ (by omega)]; omega)
    exact ⟨_, _, l, _, h⟩
  · obtain ⟨l, h⟩ := isSequence_four (b := UInt8.ofNat (v / 262144 % 8 + 240))
      (x := UInt8.ofNat (v / 4096 % 64 + 128)) (y := UInt8.ofNat (v / 64 % 64 + 128))
      (z := UInt8.ofNat (v % 64 + 128))
      (by rw [hbyte _ (by omega)]; omega) (by rw [hbyte _ (by omega)]; omega)
      (by rw [hbyte _ (by omega)]; omega) (by rw [hbyte _ (by omega)]; omega)
      (by rw [hbyte _ (by omega), hbyte _ (by omega)]; omega)
      (by rw [hbyte _ (by omega), hbyte _ (by omega)]; omega)
    exact ⟨_, _, l, _, h⟩

/-- The bytes are an encoding, or later ones could make them one. -/
def Begins (bytes : List UInt8) : Prop := ∃ c : Char, bytes <+: String.utf8EncodeChar c

/-- The maximal ill-formed sequence at the head of `bad ++ rest`: no character stands there,
`bad` is one byte or the beginning of a character, and the byte after it does not go on. -/
structure IllFormed (bad rest : List UInt8) : Prop where
  ne_nil : bad ≠ []
  undecodable : ∀ c : Char, ¬ String.utf8EncodeChar c <+: bad ++ rest
  single_or_begins : bad.length = 1 ∨ Begins bad
  maximal : ∀ b, rest.head? = some b → ¬ Begins (bad ++ [b])

private theorem begins_cons {b x : UInt8} {l : Lead} {tail : List UInt8} (hlead : lead? b = some l)
    (hx : l.low ≤ x ∧ x ≤ l.high) (htail : ∀ y ∈ tail, IsContinuation y)
    (hlen : tail.length ≤ l.tail) : Begins (b :: x :: tail) := by
  have h : IsSequence (b :: x :: (tail ++ List.replicate (l.tail - tail.length) 0x80)) b x l
      (tail ++ List.replicate (l.tail - tail.length) 0x80) := by
    refine ⟨rfl, hlead, hx, by simp; omega, ?_⟩
    intro y hy
    rcases List.mem_append.mp hy with hy | hy
    · exact htail y hy
    · rw [List.eq_of_mem_replicate hy]
      exact ⟨by decide, by decide⟩
  exact ⟨_, by rw [h.encode]; simp⟩

private theorem lead?_of_begins {b x : UInt8} {more : List UInt8} (h : Begins (b :: x :: more)) :
    ∃ l, lead? b = some l ∧ (l.low ≤ x ∧ x ≤ l.high) ∧ ∀ y ∈ more, IsContinuation y := by
  obtain ⟨c, hc⟩ := h
  rcases encode_cases c with ⟨b', -, he⟩ | ⟨b', x', l, tail, h⟩
  · rw [he] at hc
    have := hc.length_le
    simp at this
  · rw [h.bytes_eq] at hc
    simp only [List.cons_prefix_cons] at hc
    obtain ⟨rfl, rfl, hmore⟩ := hc
    exact ⟨l, h.lead_eq, h.range, fun y hy => h.continues y (hmore.subset hy)⟩

private theorem lead?_of_encode_prefix {b : UInt8} {rest : List UInt8} {c : Char}
    (h : String.utf8EncodeChar c <+: b :: rest) (hb : ¬ b.toNat < 0x80) :
    ∃ l x tail more, lead? b = some l ∧ rest = x :: (tail ++ more) ∧
      (l.low ≤ x ∧ x ≤ l.high) ∧ tail.length = l.tail ∧ ∀ y ∈ tail, IsContinuation y := by
  rcases encode_cases c with ⟨b', hb', he⟩ | ⟨b', x, l, tail, hs⟩
  · rw [he, List.cons_prefix_cons] at h
    exact absurd (h.1 ▸ hb') hb
  · rw [hs.bytes_eq, List.cons_prefix_cons] at h
    obtain ⟨rfl, more, hmore⟩ := h
    exact ⟨l, x, tail, more, hs.lead_eq, by simpa using hmore.symm, hs.range, hs.length_eq,
      hs.continues⟩

private theorem extend?_some {bits n : Nat} {bytes rest : List UInt8} {c : Char}
    (h : extend? bits n bytes = some (c, rest)) :
    ∃ tail, bytes = tail ++ rest ∧ (∀ y ∈ tail, IsContinuation y) ∧
      ((tail.length = n ∧ c = Char.ofNat (tail.foldl addBits bits)) ∨
        (tail.length < n ∧ c = replacement ∧ ∃ y, rest.head? = some y ∧ ¬ IsContinuation y)) := by
  induction n generalizing bits bytes with
  | zero =>
    simp only [extend?, Option.some.injEq, Prod.mk.injEq] at h
    exact ⟨[], by simp [h.2], by simp, .inl ⟨rfl, h.1.symm⟩⟩
  | succ n ih =>
    cases bytes with
    | nil => simp [extend?] at h
    | cons b bytes =>
      rw [extend?] at h
      split at h
      · next hb =>
        obtain ⟨tail, rfl, htail, hcase⟩ := ih h
        refine ⟨b :: tail, rfl, ?_, ?_⟩
        · intro y hy
          rcases List.mem_cons.mp hy with rfl | hy
          · exact hb
          · exact htail y hy
        · simpa [addBits] using hcase
      · next hb =>
        cases h
        exact ⟨[], rfl, by simp, .inr ⟨by simp, rfl, b, rfl, hb⟩⟩

private theorem extend?_none {bits n : Nat} {bytes : List UInt8} (h : extend? bits n bytes = none) :
    bytes.length < n ∧ ∀ y ∈ bytes, IsContinuation y := by
  induction n generalizing bits bytes with
  | zero => simp [extend?] at h
  | succ n ih =>
    cases bytes with
    | nil => simp
    | cons b bytes =>
      rw [extend?] at h
      split at h
      · next hb =>
        obtain ⟨hlen, hall⟩ := ih h
        refine ⟨by simpa using hlen, ?_⟩
        intro y hy
        rcases List.mem_cons.mp hy with rfl | hy
        · exact hb
        · exact hall y hy
      · simp at h

private theorem illFormed_single {b : UInt8} {rest : List UInt8} (hb : ¬ b.toNat < 0x80)
    (h : ∀ l x, lead? b = some l → rest.head? = some x → ¬ (l.low ≤ x ∧ x ≤ l.high)) :
    IllFormed [b] rest := by
  refine ⟨by simp, ?_, .inl rfl, ?_⟩
  · intro c hc
    rw [List.singleton_append] at hc
    obtain ⟨l, x, tail, more, hl, hrest, hx, -⟩ := lead?_of_encode_prefix hc hb
    exact h l x hl (by rw [hrest, List.head?_cons]) hx
  · intro x hx hbegins
    obtain ⟨l, hl, hrange, -⟩ := lead?_of_begins hbegins
    exact h l x hl hx hrange

private theorem illFormed_sequence {b x : UInt8} {l : Lead} {tail rest : List UInt8}
    (hb : ¬ b.toNat < 0x80) (hlead : lead? b = some l) (hx : l.low ≤ x ∧ x ≤ l.high)
    (htail : ∀ y ∈ tail, IsContinuation y) (hlen : tail.length < l.tail)
    (hrest : ∀ y, rest.head? = some y → ¬ IsContinuation y) :
    IllFormed (b :: x :: tail) rest := by
  refine ⟨by simp, ?_, .inr (begins_cons hlead hx htail (Nat.le_of_lt hlen)), ?_⟩
  · intro c hc
    rw [List.cons_append, List.cons_append] at hc
    obtain ⟨l', x', tail', more, hl', he, -, hlen', hcont⟩ := lead?_of_encode_prefix hc hb
    obtain rfl : l = l' := Option.some.inj (hlead.symm.trans hl')
    rw [List.cons.injEq] at he
    -- the character's bytes go on where the sequence ends
    obtain ⟨extra, rfl, rfl⟩ : ∃ extra, tail' = tail ++ extra ∧ rest = extra ++ more := by
      rcases List.append_eq_append_iff.mp he.2 with ⟨extra, h1, h2⟩ | ⟨extra, h1, h2⟩
      · exact ⟨extra, h1, h2⟩
      · have := congrArg List.length h1
        simp at this
        omega
    cases extra with
    | nil => simp at hlen'; omega
    | cons y extra => exact hrest y rfl (hcont y (by simp))
  · intro y hy hbegins
    obtain ⟨-, -, -, hcont⟩ := lead?_of_begins hbegins
    exact hrest y hy (hcont y (by simp))

private theorem first?_cons (b : UInt8) (rest : List UInt8) :
    first? (b :: rest) =
      if b < 0x80 then some (Char.ofNat b.toNat, rest)
      else
        match lead? b, rest with
        | none, _ => some (replacement, rest)
        | some _, [] => none
        | some l, c :: more =>
          if l.low ≤ c ∧ c ≤ l.high then extend? (addBits l.bits c) l.tail more
          else some (replacement, rest) := rfl

theorem first?_some {bytes rest : List UInt8} {c : Char} (h : first? bytes = some (c, rest)) :
    ∃ front, bytes = front ++ rest ∧
      (front = String.utf8EncodeChar c ∨ c = replacement ∧ IllFormed front rest) := by
  cases bytes with
  | nil => simp [first?] at h
  | cons b more =>
    rw [first?_cons] at h
    split at h
    · next hb =>
      cases h
      exact ⟨[b], rfl, .inl (encode_one (by simpa [UInt8.lt_iff_toNat_lt] using hb)).symm⟩
    · next hb =>
      have hb : ¬ b.toNat < 0x80 := by simpa [UInt8.lt_iff_toNat_lt] using hb
      split at h
      · next hl =>
        cases h
        exact ⟨[b], rfl, .inr ⟨rfl, illFormed_single hb (by simp [hl])⟩⟩
      · cases h
      · next l x more hl =>
        split at h
        · next hx =>
          obtain ⟨tail, rfl, htail, ⟨hlen, rfl⟩ | ⟨hlen, rfl, y, hy, hcont⟩⟩ := extend?_some h
          · exact ⟨b :: x :: tail, rfl, .inl (IsSequence.encode ⟨rfl, hl, hx, hlen, htail⟩).symm⟩
          · refine ⟨b :: x :: tail, rfl, .inr ⟨rfl, illFormed_sequence hb hl hx htail hlen ?_⟩⟩
            intro z hz
            rwa [← Option.some.inj (hy.symm.trans hz)]
        · next hx =>
          cases h
          refine ⟨[b], rfl, .inr ⟨rfl, illFormed_single hb ?_⟩⟩
          intro l' x' hl' hx'
          obtain rfl := Option.some.inj (hl.symm.trans hl')
          obtain rfl := Option.some.inj hx'
          exact hx

theorem first?_none {bytes : List UInt8} (h : first? bytes = none) :
    bytes = [] ∨ IllFormed bytes [] := by
  cases bytes with
  | nil => exact .inl rfl
  | cons b more =>
    right
    rw [first?_cons] at h
    split at h
    · cases h
    · next hb =>
      have hb : ¬ b.toNat < 0x80 := by simpa [UInt8.lt_iff_toNat_lt] using hb
      split at h
      · cases h
      · exact illFormed_single hb (by simp)
      · next l x more hl =>
        split at h
        · next hx =>
          obtain ⟨hlen, hall⟩ := extend?_none h
          exact illFormed_sequence hb hl hx hall hlen (by simp)
        · cases h

/-- The text that bytes stand for. -/
inductive Decodes : List UInt8 → List Char → Prop where
  | nil : Decodes [] []
  | char (c : Char) {rest : List UInt8} {text : List Char} (h : Decodes rest text) :
    Decodes (String.utf8EncodeChar c ++ rest) (c :: text)
  | illFormed {bad rest : List UInt8} {text : List Char} (hbad : IllFormed bad rest)
    (h : Decodes rest text) : Decodes (bad ++ rest) (replacement :: text)

theorem decodes_encoding (text : List Char) :
    Decodes (text.flatMap String.utf8EncodeChar) text := by
  induction text with
  | nil => exact .nil
  | cons c text ih => exact .char c ih

def decodeUpTo : Nat → List UInt8 → List Char
  | 0, _ => []
  | n + 1, bytes =>
    match first? bytes with
    | some (c, rest) => c :: decodeUpTo n rest
    | none => if bytes.isEmpty then [] else [replacement]

/-- All characters of the bytes; an unfinished one at the end is replaced too. -/
def decode (bytes : List UInt8) : List Char := decodeUpTo bytes.length bytes

theorem first?_length_lt {bytes rest : List UInt8} {c : Char} (h : first? bytes = some (c, rest)) :
    rest.length < bytes.length := by
  obtain ⟨front, rfl, hfront⟩ := first?_some h
  have hpos : 0 < front.length := by
    rcases hfront with rfl | ⟨-, hbad⟩
    · rw [String.length_utf8EncodeChar]
      exact c.utf8Size_pos
    · exact List.length_pos_iff.mpr hbad.ne_nil
  rw [List.length_append]
  omega

private theorem decodeUpTo_eq {n m : Nat} {bytes : List UInt8} (hn : bytes.length ≤ n)
    (hm : bytes.length ≤ m) : decodeUpTo n bytes = decodeUpTo m bytes := by
  induction n generalizing m bytes with
  | zero =>
    obtain rfl := List.length_eq_zero_iff.mp (Nat.le_zero.mp hn)
    cases m <;> rfl
  | succ n ih =>
    cases m with
    | zero =>
      obtain rfl := List.length_eq_zero_iff.mp (Nat.le_zero.mp hm)
      rfl
    | succ m =>
      rw [decodeUpTo, decodeUpTo]
      cases h : first? bytes with
      | none => rfl
      | some found =>
        obtain ⟨c, rest⟩ := found
        have hlt := first?_length_lt h
        exact congrArg (c :: ·) (ih (by omega) (by omega))

@[simp] theorem decode_nil : decode [] = [] := rfl

theorem decode_of_some {bytes rest : List UInt8} {c : Char} (h : first? bytes = some (c, rest)) :
    decode bytes = c :: decode rest := by
  have hlt := first?_length_lt h
  obtain ⟨n, hn⟩ : ∃ n, bytes.length = n + 1 := ⟨bytes.length - 1, by omega⟩
  rw [decode, hn, decodeUpTo, h]
  exact congrArg (c :: ·) (decodeUpTo_eq (by omega) (Nat.le_refl _))

theorem decode_of_none {bytes : List UInt8} (h : first? bytes = none) (hne : bytes ≠ []) :
    decode bytes = [replacement] := by
  have hpos := List.length_pos_iff.mpr hne
  obtain ⟨n, hn⟩ : ∃ n, bytes.length = n + 1 := ⟨bytes.length - 1, by omega⟩
  rw [decode, hn, decodeUpTo, h]
  simp [hne]

theorem decodes_decode (bytes : List UInt8) : Decodes bytes (decode bytes) := by
  induction hn : bytes.length using Nat.strongRecOn generalizing bytes with
  | ind n ih =>
    cases h : first? bytes with
    | none =>
      rcases first?_none h with rfl | hbad
      · exact .nil
      · rw [decode_of_none h hbad.ne_nil]
        simpa using Decodes.illFormed hbad .nil
    | some found =>
      obtain ⟨c, rest⟩ := found
      rw [decode_of_some h]
      have hrest := ih rest.length (hn ▸ first?_length_lt h) rest rfl
      obtain ⟨front, rfl, rfl | ⟨rfl, hbad⟩⟩ := first?_some h
      · exact .char c hrest
      · exact .illFormed hbad hrest

private theorem encode_append_inj {c d : Char} {rest more : List UInt8}
    (h : String.utf8EncodeChar c ++ rest = String.utf8EncodeChar d ++ more) :
    c = d ∧ rest = more := by
  have hc := ByteArray.utf8DecodeChar?_utf8EncodeChar_append (b := rest.toByteArray) (c := c)
  have hd := ByteArray.utf8DecodeChar?_utf8EncodeChar_append (b := more.toByteArray) (c := d)
  rw [← List.toByteArray_append] at hc hd
  rw [h, hd] at hc
  obtain rfl : c = d := (Option.some.inj hc).symm
  exact ⟨rfl, List.append_cancel_left h⟩

private theorem first?_encode_append (c : Char) (rest : List UInt8) :
    first? (String.utf8EncodeChar c ++ rest) = some (c, rest) := by
  cases h : first? (String.utf8EncodeChar c ++ rest) with
  | none =>
    rcases first?_none h with hnil | hbad
    · have hlen := congrArg List.length hnil
      have hpos := c.utf8Size_pos
      rw [List.length_append, String.length_utf8EncodeChar, List.length_nil] at hlen
      omega
    · exact absurd (by simp) (hbad.undecodable c)
  | some found =>
    obtain ⟨d, more⟩ := found
    obtain ⟨front, he, rfl | ⟨-, hbad⟩⟩ := first?_some h
    · obtain ⟨rfl, rfl⟩ := encode_append_inj he
      rfl
    · exact absurd (he ▸ List.prefix_append _ _) (hbad.undecodable c)

/-- An ill-formed sequence at the head of bytes has one end. -/
private theorem IllFormed.not_longer {bad bad' rest rest' : List UInt8} (h : IllFormed bad rest)
    (h' : IllFormed bad' rest') (he : bad ++ rest = bad' ++ rest') :
    bad'.length ≤ bad.length := by
  rcases List.append_eq_append_iff.mp he with ⟨extra, rfl, hrest⟩ | ⟨extra, rfl, -⟩
  · cases extra with
    | nil => simp
    | cons b extra =>
      exfalso
      have hpos := List.length_pos_iff.mpr h.ne_nil
      rcases h'.single_or_begins with hone | ⟨c, hc⟩
      · simp at hone
        omega
      · refine h.maximal b (by rw [hrest]; rfl) ⟨c, .trans ?_ hc⟩
        simp
  · simp

private theorem IllFormed.unique {bad bad' rest rest' : List UInt8} (h : IllFormed bad rest)
    (h' : IllFormed bad' rest') (he : bad ++ rest = bad' ++ rest') : bad = bad' ∧ rest = rest' :=
  List.append_inj he (Nat.le_antisymm (h'.not_longer h he.symm) (h.not_longer h' he))

/-- Bytes stand for one text, and `decode` finds it. -/
theorem Decodes.eq_decode {bytes : List UInt8} {text : List Char} (h : Decodes bytes text) :
    text = decode bytes := by
  induction h with
  | nil => rfl
  | char c _ ih => rw [decode_of_some (first?_encode_append c _), ih]
  | @illFormed bad rest text hbad _ ih =>
    cases h : first? (bad ++ rest) with
    | none =>
      rcases first?_none h with hnil | hbad'
      · exact absurd (List.append_eq_nil_iff.mp hnil).1 hbad.ne_nil
      · obtain ⟨-, rfl⟩ := hbad.unique hbad' (by simp)
        rw [decode_of_none h (by simp [hbad.ne_nil]), ih, decode_nil]
    | some found =>
      obtain ⟨c, more⟩ := found
      obtain ⟨front, he, rfl | ⟨rfl, hbad'⟩⟩ := first?_some h
      · exact absurd (he ▸ List.prefix_append _ _) (hbad.undecodable c)
      · obtain ⟨rfl, rfl⟩ := hbad.unique hbad' he
        rw [decode_of_some h, ih]

private theorem extend?_append {bits n : Nat} {bytes rest more : List UInt8} {c : Char}
    (h : extend? bits n bytes = some (c, rest)) :
    extend? bits n (bytes ++ more) = some (c, rest ++ more) := by
  induction n generalizing bits bytes with
  | zero =>
    cases h
    rfl
  | succ n ih =>
    cases bytes with
    | nil => simp [extend?] at h
    | cons b bytes =>
      rw [extend?] at h
      rw [List.cons_append, extend?]
      split at h
      · next hb =>
        rw [if_pos hb]
        exact ih h
      · next hb =>
        cases h
        rw [if_neg hb, List.cons_append]

/-- A character that is decided stays the same whatever bytes come after it. -/
theorem first?_append {bytes rest : List UInt8} {c : Char} (more : List UInt8)
    (h : first? bytes = some (c, rest)) : first? (bytes ++ more) = some (c, rest ++ more) := by
  cases bytes with
  | nil => simp [first?] at h
  | cons b bytes =>
    rw [first?_cons] at h
    rw [List.cons_append, first?_cons]
    split at h
    · next hb =>
      cases h
      rw [if_pos hb]
    · next hb =>
      rw [if_neg hb]
      split at h
      · next hl =>
        cases h
        rw [hl]
      · cases h
      · next l x tail hl =>
        rw [hl]
        split at h
        · next hx => simpa [hx] using extend?_append h
        · next hx =>
          cases h
          simp [hx]

end Copione.Utf8
