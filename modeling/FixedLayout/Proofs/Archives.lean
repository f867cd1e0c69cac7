import FixedLayout.Proofs.Checks
import FixedLayout.Proofs.Listing
import Mathlib.Data.Nat.Digits.Defs

/-!
# Archives of stored files

An archive is a sequence of stored files: a header, the content, and bytes that fill up the last
block of the content. Its listing has an entry for each of them, whatever the content is, and ends
at a block of zeros or where no whole block is left.

* `Spells`: bytes of a size field that write a number. `sizeOf?_of_spells`: it is read from them;
* `StoredFile`, `StoredFile.Proper`: a stored file whose header is accepted and says its size;
* `StoredFile.ListedAs`: the entry of a stored file. `exists_entry`: there is one;
* `walk_stored_files`: the walk goes from header to header, over the content;
* `printed`: the text of a listing. `lineBreaks_printed`: its number of lines;
* `list_of_stored_files`: the listing of an archive.
-/

namespace FixedLayout
namespace Archive

/-! ### Numbers in size fields -/

/-- Whether a byte fills up a size field. -/
def isFill (b : UInt8) : Bool := b == 0 || b == 32

/-- Whether a byte is an octal digit. -/
def IsDigit (b : UInt8) : Prop := 48 ≤ b ∧ b ≤ 55

instance (b : UInt8) : Decidable (IsDigit b) := inferInstanceAs (Decidable (48 ≤ b ∧ b ≤ 55))

/-- The number that octal digits write, the first one counting most. -/
def octalValue (digits : Bytes) : Nat :=
  Nat.ofDigits 8 (digits.reverse.map fun d => d.toNat - 48)

/-- A size field writes a number in octal digits, with fill on either side. Nothing but fill means
zero. -/
inductive Spells : Bytes → Nat → Prop
  | blank {fill : Bytes} : (∀ b ∈ fill, isFill b = true) → Spells fill 0
  | digits {before digits after : Bytes} : (∀ b ∈ before, isFill b = true) →
      (∀ b ∈ after, isFill b = true) → digits ≠ [] → (∀ d ∈ digits, IsDigit d) →
        Spells (before ++ digits ++ after) (octalValue digits)

theorem digit?_of_isDigit {d : UInt8} (h : IsDigit d) : Octal.digit? d = some (d.toNat - 48) :=
  if_pos h

/-- Digits read so far count eight times more with each digit that follows. -/
theorem digitsFrom?_eq {digits : Bytes} (h : ∀ d ∈ digits, IsDigit d) (n : Nat) :
    Octal.digitsFrom? n digits = some (octalValue digits + 8 ^ digits.length * n) := by
  induction digits generalizing n with
  | nil => simp [Octal.digitsFrom?, octalValue]
  | cons d digits ih =>
    obtain ⟨hd, hdigits⟩ := List.forall_mem_cons.1 h
    have hne : d ≠ 95 := by
      unfold IsDigit at hd
      grind
    have hvalue : octalValue (d :: digits) =
        octalValue digits + 8 ^ digits.length * (d.toNat - 48) := by
      simp [octalValue, Nat.ofDigits_append]
    unfold Octal.digitsFrom?
    rw [if_neg hne, digit?_of_isDigit hd]
    show Octal.digitsFrom? (n * 8 + (d.toNat - 48)) digits = _
    rw [ih hdigits, hvalue, List.length_cons, pow_succ]
    congr 1
    ring

theorem digitsValue?_eq {digits : Bytes} (hne : digits ≠ []) (h : ∀ d ∈ digits, IsDigit d) :
    Octal.digitsValue? digits = some (octalValue digits) := by
  cases digits with
  | nil => exact absurd rfl hne
  | cons d digits =>
    obtain ⟨hd, hdigits⟩ := List.forall_mem_cons.1 h
    rw [Octal.digitsValue?, digit?_of_isDigit hd]
    show Octal.digitsFrom? (d.toNat - 48) digits = _
    rw [digitsFrom?_eq hdigits]
    simp [octalValue, Nat.ofDigits_append]

/-- Digits are not announced by a letter, and are read as they are. -/
theorem unsigned?_eq {digits : Bytes} (h : ∀ d ∈ digits, IsDigit d) :
    Octal.unsigned? digits = Octal.digitsValue? digits := by
  unfold Octal.unsigned?
  split
  case h_5 => rfl
  all_goals
    obtain ⟨-, hsecond, -⟩ : IsDigit _ ∧ IsDigit _ ∧ _ := by
      simpa only [List.forall_mem_cons] using h
    exact absurd hsecond.2 (by decide)

/-- What is dropped at both ends of a string does not matter. -/
theorem trim_append {drop : UInt8 → Bool} {before core after : Bytes}
    (hbefore : ∀ b ∈ before, drop b = true) (hafter : ∀ b ∈ after, drop b = true)
    (hcore : ∀ b ∈ core, drop b = false) (hne : core ≠ []) :
    Octal.trim drop (before ++ core ++ after) = core := by
  have hkeep : ∀ {xs ys : Bytes}, xs ≠ [] → (∀ b ∈ xs, drop b = false) →
      (xs ++ ys).dropWhile drop = xs ++ ys := by
    intro xs ys hxs hdrop
    cases xs with
    | nil => exact absurd rfl hxs
    | cons x xs => simp [hdrop x (List.mem_cons_self ..)]
  unfold Octal.trim
  rw [List.append_assoc, List.dropWhile_append_of_pos hbefore, hkeep hne hcore,
    List.reverse_append, List.dropWhile_append_of_pos (by simpa using hafter)]
  have hback : (core.reverse ++ []).dropWhile drop = core.reverse ++ [] :=
    hkeep (by simpa using hne) (by simpa using hcore)
  rw [List.append_nil] at hback
  rw [hback, List.reverse_reverse]

theorem trim_eq_nil {drop : UInt8 → Bool} {b : Bytes} (h : ∀ x ∈ b, drop x = true) :
    Octal.trim drop b = [] := by
  unfold Octal.trim
  rw [List.dropWhile_eq_nil_iff.2 h]
  rfl

/-- Digits are read as the number that they write. -/
theorem read?_eq {digits : Bytes} (hne : digits ≠ []) (h : ∀ d ∈ digits, IsDigit d) :
    Octal.read? digits = some (octalValue digits : Int) := by
  have hblank : ∀ d ∈ digits, Octal.isBlank d = false := by
    intro d hd
    have hdigit := h d hd
    unfold IsDigit at hdigit
    unfold Octal.isBlank
    grind
  have htrim : Octal.trim Octal.isBlank ([] ++ digits ++ []) = digits :=
    trim_append (by simp) (by simp) hblank hne
  rw [List.nil_append, List.append_nil] at htrim
  have hvalue := (unsigned?_eq h).trans (digitsValue?_eq hne h)
  unfold Octal.read?
  rw [htrim]
  split
  case h_3 => rw [hvalue]; rfl
  all_goals exact absurd (h _ (List.mem_cons_self ..)).1 (by decide)

/-- A size field is read as the number that it writes. -/
theorem sizeOf?_of_spells {raw : Bytes} {n : Nat} (h : Spells raw n) :
    sizeOf? raw = some (n : Int) := by
  cases h with
  | blank hfill =>
    unfold sizeOf?
    rw [show Octal.trim (fun b => b == 0 || b == 32) raw = [] from trim_eq_nil hfill]
    rfl
  | @digits before digits after hbefore hafter hne hdigits =>
    have hkept : ∀ d ∈ digits, isFill d = false := by
      intro d hd
      have hdigit := hdigits d hd
      unfold IsDigit at hdigit
      unfold isFill
      grind
    have htrim : Octal.trim (fun b => b == 0 || b == 32) (before ++ digits ++ after) = digits :=
      trim_append hbefore hafter hkept hne
    unfold sizeOf?
    rw [htrim]
    cases digits with
    | nil => exact absurd rfl hne
    | cons d digits => exact read?_eq hne hdigits

/-! ### Headers of stored files -/

/-- A file in an archive: its header, its size, and its content with the bytes that fill up the last
block. -/
structure StoredFile where
  block : Bytes
  size : Nat
  content : Bytes

namespace StoredFile

/-- The bytes that a stored file takes in an archive. -/
def bytes (f : StoredFile) : Bytes := f.block ++ f.content

/-- The header is accepted, its size field writes the size, and the content fills as many blocks as
the size needs. -/
structure Proper (f : StoredFile) : Prop where
  accepted : header.accept f.block = .ok ()
  spelled : Spells (fieldBytes "file_size" f.block) f.size
  filled : f.content.length = (f.size + blockSize - 1) / blockSize * blockSize

/-- What the listing shows of a stored file: its size, the text of the name field up to the zeros at
its end, and the name of the type that the flag stands for. -/
structure ListedAs (f : StoredFile) (e : Entry) : Prop where
  size : e.size = f.size
  name : ∃ stem k, fieldBytes "filename" f.block = stem ++ Bytes.zeros k ∧ stem.getLast? ≠ some 0 ∧
    e.name = Utf8.decodeLossy stem
  flag : ∃ b, fieldBytes "type_flag" f.block = [b] ∧ (e.flag, (b.toNat : Int)) ∈ typeFlag.variants

end StoredFile

/-- No length in a header is negative. -/
theorem lengthsNonneg_header : header.LengthsNonneg := by
  simp [header, headerFields, wrapped, mark, Fields.ofList, Layout.LengthsNonneg,
    Fields.LengthsNonneg]

/-- A name is what comes before the zeros at its end. -/
theorem exists_stem (raw : Bytes) : ∃ stem k, raw = stem ++ Bytes.zeros k ∧
    stem.getLast? ≠ some 0 ∧ nameOf raw = Utf8.decodeLossy stem := by
  refine ⟨raw.rdropWhile (· == 0), (raw.rtakeWhile (· == 0)).length, ?_, fun hlast => ?_, rfl⟩
  · have hzeros : raw.rtakeWhile (· == 0) = Bytes.zeros (raw.rtakeWhile (· == 0)).length :=
      List.eq_replicate_iff.2 ⟨rfl, fun b hb => by simpa using List.mem_rtakeWhile_imp hb⟩
    rw [← hzeros, List.rdropWhile_append_rtakeWhile]
  · obtain ⟨hne, hzero⟩ := List.mem_getLast?_eq_getLast hlast
    exact List.rdropWhile_last_not _ _ hne (by simp [← hzero])

section Headers

variable {block : Bytes} (h : header.accept block = .ok ())

include h

theorem length_of_accept : block.length = blockSize := by
  obtain ⟨hlen, -⟩ := Layout.accept_eq_ok h
  rw [size_header] at hlen
  exact Int.ofNat_inj.1 hlen

/-- A header that is accepted is no block of zeros. -/
theorem any_of_accept : block.any (· != 0) = true := by
  by_contra hany
  have hzeros : block = Bytes.zeros blockSize := by
    refine List.eq_replicate_iff.2 ⟨length_of_accept h, fun b hb => ?_⟩
    simpa using List.any_eq_false.1 (Bool.eq_false_iff.2 hany) b hb
  -- there is no magic number among zeros
  have hrejected : (header.accept (Bytes.zeros blockSize)).isOk = false := by decide +kernel
  rw [← hzeros, h] at hrejected
  cases hrejected

/-- The flag of a header that is accepted stands for a type. -/
theorem exists_flag : ∃ b name, fieldBytes "type_flag" block = [b] ∧
    (name, (b.toNat : Int)) ∈ typeFlag.variants ∧
    (typeFlag.repr.read (fieldBytes "type_flag" block)).bind typeFlag.variant? =
      some (name, (b.toNat : Int)) := by
  obtain ⟨hlen, hcheck⟩ := Layout.accept_eq_ok h
  have hall := (Layout.check_eq_ok_iff lengthsNonneg_header hlen).1 hcheck
  -- the flag is the eighth leaf of a header
  have hflag : typeFlag.repr.fromBytes (fieldBytes "type_flag" block) ∈ typeFlag.discriminants :=
    hall _ (List.mem_of_getElem? (i := 7) rfl)
  have hone : (fieldBytes "type_flag" block).length = 1 := by
    have hrange : fieldBytes "type_flag" block = Bytes.slice block 156 157 := rfl
    have hblock := length_of_accept h
    unfold blockSize at hblock
    have hslice : ((Bytes.slice block 156 157).length : Int) = 157 - 156 :=
      Bytes.length_slice_of_le (by omega) (by omega) (by omega)
    rw [hrange]
    omega
  obtain ⟨b, hb⟩ := List.length_eq_one_iff.1 hone
  have hvalue : typeFlag.repr.fromBytes [b] = b.toNat := by
    simp [IntRepr.fromBytes, IntRepr.ofDigits, typeFlag, IntRepr.u8]
  obtain ⟨v, hv⟩ := (typeFlag.variant?_isSome_iff _).2 hflag
  have hfound := List.find?_some hv
  have hmem := List.mem_of_find?_eq_some hv
  rw [hb, hvalue] at hv hfound
  obtain ⟨name, d⟩ := v
  obtain rfl : d = b.toNat := by simpa using hfound
  refine ⟨b, name, hb, hmem, ?_⟩
  rw [typeFlag.repr.read_of_length hone, hb, hvalue]
  exact hv

end Headers

/-- A stored file has an entry. -/
theorem StoredFile.Proper.exists_entry {f : StoredFile} (h : f.Proper) :
    ∃ e, Entry.ofHeader f.block = .ok e ∧ f.ListedAs e := by
  obtain ⟨b, flag, hb, hmem, hread⟩ := exists_flag h.accepted
  refine ⟨⟨nameOf (fieldBytes "filename" f.block), f.size, flag⟩, ?_, rfl, exists_stem _,
    b, hb, hmem⟩
  unfold Entry.ofHeader
  rw [h.accepted, hread, sizeOf?_of_spells h.spelled]
  rfl

/-! ### The walk -/

/-- Where a stored file starts, the walk meets its entry. -/
theorem StoredFile.Proper.step_eq {f : StoredFile} (h : f.Proper) {e : Entry}
    (he : Entry.ofHeader f.block = .ok e) (pre rest : Bytes) :
    step (pre ++ f.block ++ rest) pre.length = .entry e := by
  have hlen := length_of_accept h.accepted
  have hblock : blockAt (pre ++ f.block ++ rest) pre.length = f.block :=
    Bytes.slice_mid rfl (by rw [hlen])
  unfold step
  simp only [hblock, he]
  refine if_pos ⟨?_, any_of_accept h.accepted⟩
  simp only [List.length_append, hlen]
  omega

/-- The next header is where the stored file ends. -/
theorem StoredFile.Proper.advance_eq {f : StoredFile} (h : f.Proper) {e : Entry}
    (he : f.ListedAs e) : e.advance = f.bytes.length := by
  have hfilled := h.filled
  have hlen := length_of_accept h.accepted
  have hdiv : ((f.size : Int) + blockSize - 1).fdiv blockSize =
      (((f.size + blockSize - 1) / blockSize : Nat) : Int) := by
    rw [Int.fdiv_eq_ediv_of_nonneg _ (Int.natCast_nonneg _)]
    unfold blockSize
    omega
  unfold Entry.advance StoredFile.bytes
  rw [he.size, hdiv, List.length_append, hlen, hfilled]
  push_cast
  rfl

/-- The walk ends where no whole block is left, and at a block of zeros. -/
theorem step_tail {tail : Bytes}
    (htail : tail.length < blockSize ∨ tail.take blockSize = Bytes.zeros blockSize) (pre : Bytes) :
    step (pre ++ tail) pre.length = .finish := by
  unfold step
  refine if_neg ?_
  rintro ⟨hin, hany⟩
  rw [List.length_append] at hin
  rcases htail with hshort | hzeros
  · omega
  · have hblock : blockAt (pre ++ tail) pre.length = Bytes.zeros blockSize := by
      rw [blockAt, Bytes.slice_append_take rfl (by unfold blockSize; omega) (by omega)]
      exact hzeros
    rw [hblock] at hany
    exact absurd hany (by decide +kernel)

/-- From the start of a stored file on, the walk meets one header after the other and ends after the
last one. The induction is on the files that are left; what comes before them grows along it. -/
theorem walk_stored_files {files : List StoredFile} (hfiles : ∀ f ∈ files, f.Proper) {tail : Bytes}
    (htail : tail.length < blockSize ∨ tail.take blockSize = Bytes.zeros blockSize) (pre : Bytes) :
    ∃ entries, List.Forall₂ StoredFile.ListedAs files entries ∧
      walk (pre ++ (files.flatMap StoredFile.bytes ++ tail)) (files.length + 1) pre.length =
        (entries, .complete) := by
  induction files generalizing pre with
  | nil =>
    refine ⟨[], .nil, ?_⟩
    unfold walk
    simp only [List.flatMap_nil, List.nil_append, step_tail htail pre]
  | cons f files ih =>
    obtain ⟨hf, hrest⟩ := List.forall_mem_cons.1 hfiles
    obtain ⟨e, he, hlisted⟩ := hf.exists_entry
    obtain ⟨entries, hentries, hwalk⟩ := ih hrest (pre ++ f.bytes)
    have hstep := hf.step_eq he pre (f.content ++ (files.flatMap StoredFile.bytes ++ tail))
    -- what is in the content makes no difference: the step is over all of it
    have hdata : pre ++ f.block ++ (f.content ++ (files.flatMap StoredFile.bytes ++ tail)) =
        pre ++ f.bytes ++ (files.flatMap StoredFile.bytes ++ tail) := by
      simp [StoredFile.bytes]
    have hoffset : (pre.length : Int) + e.advance = ((pre ++ f.bytes).length : Nat) := by
      rw [hf.advance_eq hlisted, List.length_append]
      push_cast
      rfl
    rw [hdata] at hstep
    refine ⟨e :: entries, .cons hlisted hentries, ?_⟩
    rw [List.flatMap_cons, List.append_assoc, ← List.append_assoc pre, List.length_cons]
    unfold walk
    simp only [hstep, hoffset, hwalk]

/-! ### Lines -/

/-- The text of a listing: the line of each entry, with a line break after it. -/
def printed (entries : List Entry) : String := String.join (entries.map fun e => e.line ++ "\n")

/-- The number of line breaks in a text. -/
def lineBreaks (text : String) : Nat := text.toList.count '\n'

@[simp] theorem lineBreaks_append (s t : String) :
    lineBreaks (s ++ t) = lineBreaks s + lineBreaks t := by
  simp [lineBreaks]

/-- A number has no line breaks. -/
theorem lineBreaks_natCast (n : Nat) : lineBreaks (toString (n : Int)) = 0 := by
  refine List.count_eq_zero.2 fun hmem => ?_
  have hdigits : '\n' ∈ Nat.toDigits 10 n := by
    rw [← Nat.toList_repr]
    exact hmem
  exact absurd (Nat.isDigit_of_mem_toDigits (by decide) (by decide) hdigits) (by decide)

/-- The line of a stored file has the line breaks of its name, and no others. -/
theorem StoredFile.ListedAs.lineBreaks_line {f : StoredFile} {e : Entry} (h : f.ListedAs e) :
    lineBreaks e.line = lineBreaks e.name := by
  obtain ⟨b, -, hflag⟩ := h.flag
  have hname : ∀ v ∈ typeFlag.variants, lineBreaks v.1 = 0 := by decide
  have hsize : lineBreaks (toString e.size) = 0 := by
    rw [h.size]
    exact lineBreaks_natCast f.size
  have hline : e.line = "   " ++ e.name ++ " (" ++ toString e.size ++ " bytes, " ++ e.flag ++ ")" :=
    rfl
  rw [hline]
  simp only [lineBreaks_append, hname _ hflag, hsize]
  have hfixed : lineBreaks "   " = 0 ∧ lineBreaks " (" = 0 ∧ lineBreaks " bytes, " = 0 ∧
      lineBreaks ")" = 0 := by decide
  omega

/-- A listing has a line for each stored file, and one more for each line break in a name. -/
theorem lineBreaks_printed {files : List StoredFile} {entries : List Entry}
    (h : List.Forall₂ StoredFile.ListedAs files entries) :
    lineBreaks (printed entries) =
      entries.length + (entries.map fun e => lineBreaks e.name).sum := by
  induction h with
  | nil => rfl
  | @cons f e files entries hf hrest ih =>
    have hcons : printed (e :: entries) = e.line ++ "\n" ++ printed entries := by
      simp [printed]
    have hbreak : lineBreaks "\n" = 1 := by decide
    rw [hcons, lineBreaks_append, lineBreaks_append, hf.lineBreaks_line, ih, hbreak,
      List.length_cons, List.map_cons, List.sum_cons]
    omega

/-- The listing of an archive has one entry for each stored file, in order, and ends without a
failure, whatever the contents are; what follows the files is no whole block, or starts with a block
of zeros. An entry is printed as one text with a line break after it, which is one line unless there
are line breaks in the name. -/
theorem list_of_stored_files {files : List StoredFile} (hfiles : ∀ f ∈ files, f.Proper)
    {tail : Bytes} (htail : tail.length < blockSize ∨ tail.take blockSize = Bytes.zeros blockSize) :
    ∃ entries, List.Forall₂ StoredFile.ListedAs files entries ∧
      list (files.flatMap StoredFile.bytes ++ tail) = (entries, .complete) ∧
      lineBreaks (printed entries) =
        entries.length + (entries.map fun e => lineBreaks e.name).sum := by
  obtain ⟨entries, hentries, hwalk⟩ := walk_stored_files hfiles htail []
  simp only [List.nil_append] at hwalk
  refine ⟨entries, hentries, ?_, lineBreaks_printed hentries⟩
  rw [← hwalk]
  refine list_eq_walk ?_
  rw [show ((0 : Int)) = (([] : Bytes).length : Int) from rfl, hwalk]
  nofun

/-- A stored file is proper if its header is accepted and has the digits of the size before a
zero. -/
theorem proper_of_digits {f : StoredFile} (haccept : (header.accept f.block).isOk = true)
    {digits : Bytes} (hfield : fieldBytes "file_size" f.block = digits ++ [0]) (hne : digits ≠ [])
    (hdigits : ∀ d ∈ digits, IsDigit d) (hvalue : octalValue digits = f.size)
    (hfilled : f.content.length = (f.size + blockSize - 1) / blockSize * blockSize) : f.Proper where
  accepted := by
    cases h : header.accept f.block with
    | ok u => rfl
    | error fault => rw [h] at haccept; cases haccept
  spelled := by
    have hspells : Spells ([] ++ digits ++ [0]) (octalValue digits) :=
      .digits (by simp) (by simp [isFill]) hne hdigits
    rw [List.nil_append, ← hfield, hvalue] at hspells
    exact hspells
  filled := hfilled

/-- A stored file whose content is the header of another one. -/
def nestedFile : StoredFile :=
  ⟨fileHeaderWith "outer" 512 (List.replicate 8 32), 512,
    fileHeaderWith "inner" 0 (List.replicate 8 32)⟩

theorem proper_nestedFile : nestedFile.Proper := by
  have hfield : fieldBytes "file_size" nestedFile.block =
      [48, 48, 48, 48, 48, 48, 48, 49, 48, 48, 48] ++ [0] := by decide +kernel
  exact proper_of_digits (by decide +kernel) hfield (by decide) (by decide +kernel)
    (by decide +kernel) (by decide +kernel)

/-- Of a file that holds a header, only its own header is listed. -/
theorem content_is_passed_over : nestedFile.Proper ∧
    (Bytes.zeros 512).take blockSize = Bytes.zeros blockSize ∧ ∃ e, e.size = 512 ∧
      list ([nestedFile].flatMap StoredFile.bytes ++ Bytes.zeros 512) = ([e], .complete) := by
  have htail : (Bytes.zeros 512).take blockSize = Bytes.zeros blockSize := by decide +kernel
  refine ⟨proper_nestedFile, htail, ?_⟩
  obtain ⟨entries, hentries, hlist, -⟩ :=
    list_of_stored_files (List.forall_mem_singleton.2 proper_nestedFile) (.inr htail)
  obtain ⟨e, he, rfl⟩ : ∃ e, nestedFile.ListedAs e ∧ entries = [e] := by
    cases hentries with
    | cons he hrest =>
      cases hrest
      exact ⟨_, he, rfl⟩
  exact ⟨e, he.size, hlist⟩

/-- A stored file with a line break in its name. -/
def brokenName : StoredFile := ⟨fileHeaderWith "a\nb" 0 (List.replicate 8 32), 0, []⟩

/-- The one entry of a file with a line break in its name takes two lines. -/
theorem broken_name_takes_two_lines : brokenName.Proper ∧
    (list brokenName.bytes).1.length = 1 ∧ lineBreaks (printed (list brokenName.bytes).1) = 2 := by
  have hfield : fieldBytes "file_size" brokenName.block =
      [48, 48, 48, 48, 48, 48, 48, 48, 48, 48, 48] ++ [0] := by decide +kernel
  refine ⟨?_, by decide +kernel, by decide +kernel⟩
  exact proper_of_digits (by decide +kernel) hfield (by decide) (by decide +kernel)
    (by decide +kernel) rfl

end Archive
end FixedLayout
