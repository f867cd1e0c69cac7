import FixedLayout.Text.Utf8

/-!
# Characters in UTF-8

The decoding machine reads exactly the sequences that characters are written as.

* `Spelling`: the byte sequences of the character codes, by length;
* `spelling_utf8EncodeChar`, `utf8EncodeChar_of_spelling`: a character has one sequence;
* `piecesFrom_spelling`, `exists_spelling_of_piecesFrom`: the machine reads a sequence as its
  character, and whatever it reads as a character is such a sequence;
* `decode_eq_ok_iff`: a text is decoded from the bytes that it is written as, and from no others;
* `decode_utf8EncodeChar`, `eq_utf8EncodeChar_of_decode`: a string of as many bytes as a character
  has decodes to a text that starts with it exactly if it is the sequence of that character.
-/

namespace FixedLayout
namespace Utf8

/-- A byte that continues a sequence. -/
def Tail (b : UInt8) : Prop := 0x80 ≤ b.toNat ∧ b.toNat ≤ 0xBF

/-- The sequence of a character code: no overlong ones, no surrogates, nothing above the last
code. -/
inductive Spelling : Bytes → Nat → Prop
  | one {a : UInt8} : a.toNat < 0x80 → Spelling [a] a.toNat
  | two {a b : UInt8} : 0xC2 ≤ a.toNat → a.toNat < 0xE0 → Tail b →
      Spelling [a, b] (a.toNat % 32 * 64 + b.toNat % 64)
  | three {a b c : UInt8} : 0xE0 ≤ a.toNat → a.toNat < 0xF0 → Tail b → Tail c →
      (a.toNat = 0xE0 → 0xA0 ≤ b.toNat) → (a.toNat = 0xED → b.toNat ≤ 0x9F) →
      Spelling [a, b, c] ((a.toNat % 16 * 64 + b.toNat % 64) * 64 + c.toNat % 64)
  | four {a b c d : UInt8} : 0xF0 ≤ a.toNat → a.toNat < 0xF5 → Tail b → Tail c → Tail d →
      (a.toNat = 0xF0 → 0x90 ≤ b.toNat) → (a.toNat = 0xF4 → b.toNat ≤ 0x8F) →
      Spelling [a, b, c, d]
        (((a.toNat % 8 * 64 + b.toNat % 64) * 64 + c.toNat % 64) * 64 + d.toNat % 64)

/-! ### Sequences of characters -/

theorem toNat_ofNat_of_isValidChar {n : Nat} (h : n.isValidChar) : (Char.ofNat n).toNat = n := by
  unfold Char.ofNat
  rw [dif_pos h]
  rfl

/-- The codes of characters leave out the surrogates. -/
theorem toNat_cases (c : Char) : c.toNat < 0xD800 ∨ 0xDFFF < c.toNat ∧ c.toNat < 0x110000 := by
  have h := c.valid
  simp only [UInt32.isValidChar, Nat.isValidChar] at h
  exact h

/-- What a character is written as spells its code. -/
theorem spelling_utf8EncodeChar (c : Char) : Spelling (String.utf8EncodeChar c) c.toNat := by
  have hc := toNat_cases c
  have hbyte : ∀ n : Nat, n < 256 → (UInt8.ofNat n).toNat = n := fun n hn => by
    rw [UInt8.toNat_ofNat', Nat.mod_eq_of_lt (by omega)]
  unfold String.utf8EncodeChar
  change Spelling _ c.val.toNat
  change c.val.toNat < 0xD800 ∨ 0xDFFF < c.val.toNat ∧ c.val.toNat < 0x110000 at hc
  generalize c.val.toNat = v at hc ⊢
  simp only
  split
  · have h := Spelling.one (a := UInt8.ofNat v) (by rw [hbyte v (by omega)]; omega)
    rwa [hbyte v (by omega)] at h
  split
  · have ha := hbyte (v / 64 % 32 + 0xC0) (by omega)
    have hb := hbyte (v % 64 + 0x80) (by omega)
    have h := Spelling.two (a := UInt8.ofNat (v / 64 % 32 + 0xC0))
      (b := UInt8.ofNat (v % 64 + 0x80)) (by omega) (by omega) ⟨by omega, by omega⟩
    rw [ha, hb, show (v / 64 % 32 + 0xC0) % 32 * 64 + (v % 64 + 0x80) % 64 = v by omega] at h
    exact h
  split
  · have ha := hbyte (v / 4096 % 16 + 0xE0) (by omega)
    have hb := hbyte (v / 64 % 64 + 0x80) (by omega)
    have hd := hbyte (v % 64 + 0x80) (by omega)
    have h := Spelling.three (a := UInt8.ofNat (v / 4096 % 16 + 0xE0))
      (b := UInt8.ofNat (v / 64 % 64 + 0x80)) (c := UInt8.ofNat (v % 64 + 0x80))
      (by omega) (by omega) ⟨by omega, by omega⟩ ⟨by omega, by omega⟩ (by omega) (by omega)
    rw [ha, hb, hd, show ((v / 4096 % 16 + 0xE0) % 16 * 64 + (v / 64 % 64 + 0x80) % 64) * 64 +
      (v % 64 + 0x80) % 64 = v by omega] at h
    exact h
  · have ha := hbyte (v / 262144 % 8 + 0xF0) (by omega)
    have hb := hbyte (v / 4096 % 64 + 0x80) (by omega)
    have hd := hbyte (v / 64 % 64 + 0x80) (by omega)
    have he := hbyte (v % 64 + 0x80) (by omega)
    have h := Spelling.four (a := UInt8.ofNat (v / 262144 % 8 + 0xF0))
      (b := UInt8.ofNat (v / 4096 % 64 + 0x80)) (c := UInt8.ofNat (v / 64 % 64 + 0x80))
      (d := UInt8.ofNat (v % 64 + 0x80)) (by omega) (by omega) ⟨by omega, by omega⟩
      ⟨by omega, by omega⟩ ⟨by omega, by omega⟩ (by omega) (by omega)
    rw [ha, hb, hd, he, show (((v / 262144 % 8 + 0xF0) % 8 * 64 +
      (v / 4096 % 64 + 0x80) % 64) * 64 + (v / 64 % 64 + 0x80) % 64) * 64 +
      (v % 64 + 0x80) % 64 = v by omega] at h
    exact h

/-- No other sequence spells a character's code. -/
theorem utf8EncodeChar_of_spelling {bs : Bytes} {n : Nat} (h : Spelling bs n) :
    String.utf8EncodeChar (Char.ofNat n) = bs := by
  have hbyte : ∀ (m : Nat) (b : UInt8), m = b.toNat → UInt8.ofNat m = b := by
    rintro m b rfl
    exact UInt8.ofNat_toNat
  unfold String.utf8EncodeChar
  cases h with
  | @one a ha =>
    have hv : (Char.ofNat a.toNat).val.toNat = a.toNat :=
      toNat_ofNat_of_isValidChar (Or.inl (by omega))
    simp only [hv]
    rw [if_pos (by omega), hbyte _ a rfl]
  | @two a b ha ha' hb =>
    obtain ⟨hb, hb'⟩ := hb
    have hv : (Char.ofNat (a.toNat % 32 * 64 + b.toNat % 64)).val.toNat =
        a.toNat % 32 * 64 + b.toNat % 64 := toNat_ofNat_of_isValidChar (Or.inl (by omega))
    simp only [hv]
    rw [if_neg (by omega), if_pos (by omega), hbyte _ a (by omega), hbyte _ b (by omega)]
  | @three a b c ha ha' hb hc hlow hhigh =>
    obtain ⟨hb, hb'⟩ := hb
    obtain ⟨hc, hc'⟩ := hc
    have hv : (Char.ofNat ((a.toNat % 16 * 64 + b.toNat % 64) * 64 + c.toNat % 64)).val.toNat =
        (a.toNat % 16 * 64 + b.toNat % 64) * 64 + c.toNat % 64 :=
      toNat_ofNat_of_isValidChar (by unfold Nat.isValidChar; omega)
    simp only [hv]
    rw [if_neg (by omega), if_neg (by omega), if_pos (by omega), hbyte _ a (by omega),
      hbyte _ b (by omega), hbyte _ c (by omega)]
  | @four a b c d ha ha' hb hc hd hlow hhigh =>
    obtain ⟨hb, hb'⟩ := hb
    obtain ⟨hc, hc'⟩ := hc
    obtain ⟨hd, hd'⟩ := hd
    have hv : (Char.ofNat (((a.toNat % 8 * 64 + b.toNat % 64) * 64 + c.toNat % 64) * 64 +
        d.toNat % 64)).val.toNat =
        ((a.toNat % 8 * 64 + b.toNat % 64) * 64 + c.toNat % 64) * 64 + d.toNat % 64 :=
      toNat_ofNat_of_isValidChar (by unfold Nat.isValidChar; omega)
    simp only [hv]
    rw [if_neg (by omega), if_neg (by omega), if_neg (by omega), hbyte _ a (by omega),
      hbyte _ b (by omega), hbyte _ c (by omega), hbyte _ d (by omega)]

/-! ### The machine -/

/-- The value of a sequence under way after one more byte. -/
def Pending.grown (p : Pending) (b : UInt8) : Nat := p.value * 64 + b.toNat % 64

/-- A sequence under way after a byte that is not its last one. -/
def Pending.advance (p : Pending) (b : UInt8) : Pending :=
  ⟨p.owed - 1, 0x80, 0xBF, p.grown b, p.start, p.first, p.taken + 1⟩

@[simp] theorem Pending.owed_advance (p : Pending) (b : UInt8) : (p.advance b).owed = p.owed - 1 :=
  rfl

/-- A byte that can continue a sequence ends it or leads on. -/
theorem piecesFrom_of_mem {p : Pending} {b : UInt8} (h : p.low ≤ b ∧ b ≤ p.high) (pos : Nat)
    (rest : Bytes) :
    piecesFrom (some p) pos (b :: rest) =
      if p.owed ≤ 1 then .char (Char.ofNat (p.grown b)) :: piecesFrom none (pos + 1) rest
      else piecesFrom (some (p.advance b)) (pos + 1) rest := by
  simp only [piecesFrom, Pending.next?]
  rw [if_pos h]
  by_cases hp : p.owed ≤ 1
  · rw [if_pos hp, if_pos hp]
    rfl
  · rw [if_neg hp, if_neg hp]
    rfl

/-- Only such a byte lets the machine read a character. -/
theorem exists_mem_of_piecesFrom {p : Pending} {pos : Nat} {data : Bytes} {c : Char}
    {ps : List Piece} (h : piecesFrom (some p) pos data = .char c :: ps) :
    ∃ b rest, data = b :: rest ∧ p.low ≤ b ∧ b ≤ p.high := by
  cases data with
  | nil => simp [piecesFrom, Pending.fail] at h
  | cons b rest =>
    refine ⟨b, rest, rfl, ?_⟩
    by_cases hb : p.low ≤ b ∧ b ≤ p.high
    · exact hb
    · simp [piecesFrom, Pending.next?, if_neg hb, Pending.fail] at h

/-- What a byte between sequences can start. -/
theorem opening_cases (pos : Nat) (a : UInt8) :
    (a.toNat < 0x80 ∧ opening pos a = .inl (.char (Char.ofNat a.toNat))) ∨
    ((0x80 ≤ a.toNat ∧ a.toNat < 0xC2 ∨ 0xF5 ≤ a.toNat) ∧
      opening pos a = .inl (.bad pos 1 a .start)) ∨
    (0xC2 ≤ a.toNat ∧ a.toNat < 0xE0 ∧
      opening pos a = .inr ⟨1, 0x80, 0xBF, a.toNat % 32, pos, a, 1⟩) ∨
    (0xE0 ≤ a.toNat ∧ a.toNat < 0xF0 ∧
      opening pos a = .inr ⟨2, if a = 0xE0 then 0xA0 else 0x80, if a = 0xED then 0x9F else 0xBF,
        a.toNat % 16, pos, a, 1⟩) ∨
    (0xF0 ≤ a.toNat ∧ a.toNat < 0xF5 ∧
      opening pos a = .inr ⟨3, if a = 0xF0 then 0x90 else 0x80, if a = 0xF4 then 0x8F else 0xBF,
        a.toNat % 8, pos, a, 1⟩) := by
  have ge : ∀ {b c : UInt8}, ¬ b < c → c.toNat ≤ b.toNat := fun h =>
    UInt8.le_iff_toNat_le.1 (UInt8.not_lt.1 h)
  unfold opening
  split
  · next h => exact Or.inl ⟨h, rfl⟩
  next h80 =>
  split
  · next h => exact Or.inr (Or.inl ⟨Or.inl ⟨ge h80, h⟩, rfl⟩)
  next hC2 =>
  split
  · next h => exact Or.inr (Or.inr (Or.inl ⟨ge hC2, h, rfl⟩))
  next hE0 =>
  split
  · next h => exact Or.inr (Or.inr (Or.inr (Or.inl ⟨ge hE0, h, rfl⟩)))
  next hF0 =>
  split
  · next h => exact Or.inr (Or.inr (Or.inr (Or.inr ⟨ge hF0, h, rfl⟩)))
  next hF5 => exact Or.inr (Or.inl ⟨Or.inr (ge hF5), rfl⟩)

theorem tail_bounds {b : UInt8} : (0x80 : UInt8) ≤ b ∧ b ≤ 0xBF ↔ Tail b := Iff.rfl

/-- The bounds after a first byte that restricts the second one. -/
theorem second_bounds {a b lowest highest low high : UInt8} :
    (if a = lowest then low else 0x80) ≤ b ∧ b ≤ (if a = highest then high else 0xBF) ↔
      (if a.toNat = lowest.toNat then low.toNat else 0x80) ≤ b.toNat ∧
        b.toNat ≤ if a.toNat = highest.toNat then high.toNat else 0xBF := by
  simp only [UInt8.toNat_inj, UInt8.le_iff_toNat_le]
  split <;> split <;> exact Iff.rfl

/-- The machine reads a sequence as its character. -/
theorem piecesFrom_spelling {bs : Bytes} {n : Nat} (h : Spelling bs n) (pos : Nat) (rest : Bytes) :
    piecesFrom none pos (bs ++ rest) =
      .char (Char.ofNat n) :: piecesFrom none (pos + bs.length) rest := by
  cases h with
  | @one a ha =>
    -- the first byte alone says how many follow
    rcases opening_cases pos a with ⟨-, hopen⟩ | ⟨h, -⟩ | ⟨h, -⟩ | ⟨h, -⟩ | ⟨h, -⟩ <;> try omega
    simp only [List.cons_append, List.nil_append, piecesFrom, hopen]
    rfl
  | @two a b ha ha' hb =>
    rcases opening_cases pos a with ⟨h, -⟩ | ⟨h, -⟩ | ⟨-, -, hopen⟩ | ⟨h, -⟩ | ⟨h, -⟩ <;> try omega
    rw [List.cons_append, piecesFrom, hopen, List.cons_append]
    simp only
    rw [piecesFrom_of_mem (tail_bounds.2 hb)]
    rfl
  | @three a b c ha ha' hb hc hlow hhigh =>
    rcases opening_cases pos a with ⟨h, -⟩ | ⟨h, -⟩ | ⟨-, h, -⟩ | ⟨-, -, hopen⟩ | ⟨h, -⟩ <;>
      try omega
    have hb' : 0x80 ≤ b.toNat ∧ b.toNat ≤ 0xBF := hb
    rw [List.cons_append, piecesFrom, hopen, List.cons_append, List.cons_append]
    simp only
    rw [piecesFrom_of_mem (second_bounds.2 (by simp; split <;> split <;> omega)),
      if_neg (show ¬ 2 ≤ 1 by decide), piecesFrom_of_mem (tail_bounds.2 hc)]
    rfl
  | @four a b c d ha ha' hb hc hd hlow hhigh =>
    rcases opening_cases pos a with ⟨h, -⟩ | ⟨h, -⟩ | ⟨-, h, -⟩ | ⟨-, h, -⟩ | ⟨-, -, hopen⟩ <;>
      try omega
    have hb' : 0x80 ≤ b.toNat ∧ b.toNat ≤ 0xBF := hb
    rw [List.cons_append, piecesFrom, hopen, List.cons_append, List.cons_append, List.cons_append]
    simp only
    rw [piecesFrom_of_mem (second_bounds.2 (by simp; split <;> split <;> omega)),
      if_neg (show ¬ 3 ≤ 1 by decide), piecesFrom_of_mem (tail_bounds.2 hc), Pending.owed_advance,
      if_neg (show ¬ 3 - 1 ≤ 1 by decide), piecesFrom_of_mem (tail_bounds.2 hd)]
    rfl

/-- What the machine reads as a character is a sequence of that character. -/
theorem exists_spelling_of_piecesFrom {pos : Nat} {data : Bytes} {c : Char} {ps : List Piece}
    (h : piecesFrom none pos data = .char c :: ps) :
    ∃ bs n rest, data = bs ++ rest ∧ Spelling bs n ∧ c = Char.ofNat n := by
  cases data with
  | nil => simp [piecesFrom] at h
  | cons a data =>
    rw [piecesFrom] at h
    rcases opening_cases pos a with
      ⟨ha, hopen⟩ | ⟨-, hopen⟩ | ⟨ha, ha', hopen⟩ | ⟨ha, ha', hopen⟩ | ⟨ha, ha', hopen⟩ <;>
      simp only [hopen] at h
    · cases h
      exact ⟨[a], _, data, rfl, .one ha, rfl⟩
    · cases h
    · -- each further byte is there, since the sequence would not have ended in a character else
      obtain ⟨b, rest, rfl, hb⟩ := exists_mem_of_piecesFrom h
      rw [piecesFrom_of_mem hb] at h
      cases h
      exact ⟨[a, b], _, rest, rfl, .two ha ha' (tail_bounds.1 hb), rfl⟩
    · obtain ⟨b, rest, rfl, hb⟩ := exists_mem_of_piecesFrom h
      rw [piecesFrom_of_mem hb, if_neg (show ¬ 2 ≤ 1 by decide)] at h
      obtain ⟨c, rest, rfl, hc⟩ := exists_mem_of_piecesFrom h
      rw [piecesFrom_of_mem hc] at h
      cases h
      have hb' := second_bounds.1 hb
      simp at hb'
      exact ⟨[a, b, c], _, rest, rfl, .three ha ha' ⟨by split at hb' <;> omega,
        by split at hb' <;> split at hb' <;> omega⟩ (tail_bounds.1 hc)
        (fun h0 => by rw [if_pos h0] at hb'; omega)
        (fun h0 => by rw [if_pos h0] at hb'; omega), rfl⟩
    · obtain ⟨b, rest, rfl, hb⟩ := exists_mem_of_piecesFrom h
      rw [piecesFrom_of_mem hb, if_neg (show ¬ 3 ≤ 1 by decide)] at h
      obtain ⟨c, rest, rfl, hc⟩ := exists_mem_of_piecesFrom h
      rw [piecesFrom_of_mem hc, Pending.owed_advance, if_neg (show ¬ 3 - 1 ≤ 1 by decide)] at h
      obtain ⟨d, rest, rfl, hd⟩ := exists_mem_of_piecesFrom h
      rw [piecesFrom_of_mem hd] at h
      cases h
      have hb' := second_bounds.1 hb
      simp at hb'
      exact ⟨[a, b, c, d], _, rest, rfl, .four ha ha' ⟨by split at hb' <;> omega,
        by split at hb' <;> split at hb' <;> omega⟩ (tail_bounds.1 hc) (tail_bounds.1 hd)
        (fun h0 => by rw [if_pos h0] at hb'; omega)
        (fun h0 => by rw [if_pos h0] at hb'; omega), rfl⟩

/-! ### Whole strings -/

/-- A sequence under way ends in a piece. -/
theorem piecesFrom_some_ne_nil (p : Pending) (pos : Nat) (data : Bytes) :
    piecesFrom (some p) pos data ≠ [] := by
  induction data generalizing p pos with
  | nil => exact List.cons_ne_nil _ _
  | cons b rest ih =>
    rw [piecesFrom]
    split
    · exact List.cons_ne_nil _ _
    · next q _ => exact ih q (pos + 1)
    · exact List.cons_ne_nil _ _

theorem piecesFrom_none_ne_nil (pos : Nat) (b : UInt8) (rest : Bytes) :
    piecesFrom none pos (b :: rest) ≠ [] := by
  rw [piecesFrom]
  split
  · exact List.cons_ne_nil _ _
  · next p _ => exact piecesFrom_some_ne_nil p (pos + 1) rest

theorem chars_cons {p : Piece} {ps : List Piece} {cs : List Char} (h : chars (p :: ps) = .ok cs) :
    ∃ c ds, p = .char c ∧ chars ps = .ok ds ∧ cs = c :: ds := by
  cases p with
  | bad start length first fault => cases h
  | char c =>
    unfold chars at h
    cases hps : chars ps with
    | error e => rw [hps] at h; cases h
    | ok ds => rw [hps] at h; cases h; exact ⟨c, ds, rfl, rfl, rfl⟩

/-- The machine reads a text from the bytes that it is written as, and from no others. -/
theorem chars_piecesFrom_eq_ok_iff {pos : Nat} {data : Bytes} {cs : List Char} :
    chars (piecesFrom none pos data) = .ok cs ↔ data = cs.flatMap String.utf8EncodeChar := by
  induction cs generalizing pos data with
  | nil =>
    constructor
    · intro h
      cases data with
      | nil => rfl
      | cons b rest =>
        obtain ⟨p, ps, hp⟩ := List.exists_cons_of_ne_nil (piecesFrom_none_ne_nil pos b rest)
        rw [hp] at h
        obtain ⟨c, ds, -, -, hds⟩ := chars_cons h
        cases hds
    · rintro rfl
      rfl
  | cons c cs ih =>
    constructor
    · intro h
      cases hp : piecesFrom none pos data with
      | nil => rw [hp] at h; cases h
      | cons p ps =>
        rw [hp] at h
        obtain ⟨d, ds, rfl, hds, heq⟩ := chars_cons h
        cases heq
        obtain ⟨bs, n, rest, rfl, hs, rfl⟩ := exists_spelling_of_piecesFrom hp
        rw [piecesFrom_spelling hs] at hp
        cases hp
        rw [List.flatMap_cons, utf8EncodeChar_of_spelling hs, ← ih.1 hds]
    · rintro rfl
      have hfirst := piecesFrom_spelling (spelling_utf8EncodeChar c) pos
        (cs.flatMap String.utf8EncodeChar)
      rw [Char.ofNat_toNat] at hfirst
      rw [List.flatMap_cons, hfirst, chars, ih.2 rfl]
      rfl

/-- A text is decoded from the bytes that it is written as, and from no others. -/
theorem decode_eq_ok_iff {data : Bytes} {cs : List Char} :
    decode data = .ok cs ↔ data = cs.flatMap String.utf8EncodeChar :=
  chars_piecesFrom_eq_ok_iff

/-- Decoding fails on the bytes that no text is written as. -/
theorem decode_fails_iff {data : Bytes} :
    (∃ e, decode data = .error e) ↔ ¬ ∃ s : String, data = encode s := by
  constructor
  · rintro ⟨e, he⟩ ⟨s, hs⟩
    rw [decode_eq_ok_iff.2 hs] at he
    cases he
  · intro h
    cases hd : decode data with
    | error e => exact ⟨e, rfl⟩
    | ok cs =>
      refine absurd ⟨String.ofList cs, ?_⟩ h
      rw [encode, String.toList_ofList]
      exact decode_eq_ok_iff.1 hd

/-- What a character is written as decodes to this character. -/
theorem decode_utf8EncodeChar (c : Char) : decode (String.utf8EncodeChar c) = .ok [c] :=
  decode_eq_ok_iff.2 (List.flatMap_singleton _ c).symm

/-- A string of as many bytes as a character has that decodes to a text which starts with it is what
the character is written as. -/
theorem eq_utf8EncodeChar_of_decode {data : Bytes} {c : Char} {cs : List Char}
    (h : decode data = .ok (c :: cs)) (hlen : data.length = (String.utf8EncodeChar c).length) :
    data = String.utf8EncodeChar c := by
  have hdata := decode_eq_ok_iff.1 h
  rw [List.flatMap_cons] at hdata
  rw [hdata, List.length_append] at hlen
  obtain hrest : cs.flatMap String.utf8EncodeChar = [] := List.length_eq_zero_iff.1 (by omega)
  rw [hdata, hrest, List.append_nil]

end Utf8
end FixedLayout
