import Frontend.Override.Reader
import Frontend.Proofs.List
import Mathlib

/-!
# Places and offsets

A place in a text of overrides is told by its line and by the bytes before it in this line, and
`Override.offsetOf` finds it again. Both go by the bytes of the text (`encoding`). The byte of a
line feed occurs in no other character, so the lines of the characters are those of the bytes
(`linesSize_eq`), and what stands before a byte is the lines that end before it, which are as many
as the line feeds before it, and the bytes since the last of these (`firstLines_add_afterLast`).

`offsetOf_inverts_line_column` says that every byte is found from its line and column, and that
whatever else is asked for stays within the text and in the order of the columns and the lines. For
a text that cannot be read, this is the last byte that was read (`span_complaint`).
-/

namespace Frontend.Override

open Text

/-- The bytes of a text. -/
def encoding (cs : List Char) : List UInt8 := cs.flatMap String.utf8EncodeChar

/-- The byte that ends a line. -/
def lineFeed : UInt8 := 10

/-- The number of bytes of the first `n` lines, each with its line feed. -/
def firstLines : Nat → List UInt8 → Nat
  | 0, _ => 0
  | _ + 1, [] => 0
  | n + 1, b :: bs => 1 + (if b = lineFeed then firstLines n bs else firstLines (n + 1) bs)

variable {cs : List Char} {bs ds : List UInt8} {c : Char} {n : Nat}

/-! ## Bytes -/

theorem encoding_cons (c : Char) (cs : List Char) :
    encoding (c :: cs) = String.utf8EncodeChar c ++ encoding cs := rfl

/-- The bytes of a text are those of its characters. -/
theorem encoding_toList (text : String) : encoding text.toList = text.toByteArray.data.toList := by
  conv_rhs => rw [← String.ofList_toList (s := text), String.toByteArray_ofList]
  rw [List.utf8Encode, List.data_toByteArray, encoding]

/-- The size of a text is the number of its bytes. -/
theorem byteSize_eq (cs : List Char) : byteSize cs = (encoding cs).length := by
  induction cs with
  | nil => rfl
  | cons c cs ih =>
    rw [byteSize_cons, encoding_cons, List.length_append, String.length_utf8EncodeChar, ih]

/-- The bytes of a character other than the line feed are other bytes. -/
theorem lineFeed_not_mem (hc : c ≠ '\n') : lineFeed ∉ String.utf8EncodeChar c := by
  have hval : c.val.toNat ≠ 10 := fun h => hc (Char.ext (UInt32.toNat_inj.1 h))
  have hbyte (v : Nat) : lineFeed = UInt8.ofNat v ↔ v % 256 = 10 := by
    rw [← UInt8.toNat_inj, UInt8.toNat_ofNat', eq_comm]
    rfl
  -- A character is one byte below 128, or several that are not.
  unfold String.utf8EncodeChar
  intro hmem
  dsimp only at hmem
  split_ifs at hmem <;>
    simp only [List.mem_cons, List.not_mem_nil, or_false, hbyte] at hmem <;> omega

/-! ## Lines -/

theorem firstLines_le (n : Nat) (bs : List UInt8) : firstLines n bs ≤ bs.length := by
  induction bs generalizing n with
  | nil => cases n <;> exact Nat.le_refl _
  | cons b bs ih =>
    cases n with
    | zero => exact Nat.zero_le _
    | succ n =>
      have := ih n
      have := ih (n + 1)
      rw [firstLines, List.length_cons]
      split <;> omega

theorem firstLines_mono (bs : List UInt8) : Monotone (firstLines · bs) := by
  refine monotone_nat_of_le_succ fun n => ?_
  induction bs generalizing n with
  | nil => cases n <;> exact Nat.le_refl _
  | cons b bs ih =>
    cases n with
    | zero => exact Nat.zero_le _
    | succ n =>
      have := ih n
      have := ih (n + 1)
      simp only [firstLines]
      split <;> omega

/-- Bytes without a line feed belong to the first of the lines. -/
theorem firstLines_append (h : lineFeed ∉ ds) (n : Nat) :
    firstLines (n + 1) (ds ++ bs) = ds.length + firstLines (n + 1) bs := by
  induction ds with
  | nil => exact (Nat.zero_add _).symm
  | cons b ds ih =>
    rw [List.mem_cons, not_or] at h
    rw [List.cons_append, firstLines, if_neg (Ne.symm h.1), ih h.2, List.length_cons]
    omega

/-- The line feeds up to one of them end the lines up to it. -/
theorem firstLines_line (before bs : List UInt8) :
    firstLines (before.count lineFeed + 1) (before ++ lineFeed :: bs) = before.length + 1 := by
  induction before with
  | nil => simp [firstLines]
  | cons b before ih =>
    rw [List.cons_append, firstLines, List.length_cons]
    split
    · next hb => rw [hb, List.count_cons_self, ih, Nat.add_comm]
    · next hb => rw [List.count_cons_of_ne hb, ih, Nat.add_comm]

/-- What stands before a byte is the lines that end before it and the bytes since the last of
    them. -/
theorem firstLines_add_afterLast (before bs : List UInt8) :
    firstLines (before.count lineFeed) (before ++ bs) + (afterLast lineFeed before).length =
      before.length := by
  induction before using List.reverseRecOn generalizing bs with
  | nil => simp [firstLines, afterLast]
  | append_singleton before b ih =>
    rw [List.append_assoc, List.singleton_append, List.count_append, List.length_append,
      List.length_singleton]
    by_cases hb : b = lineFeed
    · subst hb
      rw [List.count_singleton_self, firstLines_line, afterLast_append_self]
      rfl
    · have hline : lineFeed ∉ [b] := mt List.mem_singleton.1 (Ne.symm hb)
      rw [List.count_eq_zero_of_not_mem hline, Nat.add_zero, afterLast_append hline,
        List.length_append, List.length_singleton, ← Nat.add_assoc, ih]

/-- The lines of the characters are those of the bytes. -/
theorem linesSize_eq (n : Nat) (cs : List Char) : linesSize n cs = firstLines n (encoding cs) := by
  induction cs generalizing n with
  | nil => cases n <;> rfl
  | cons c cs ih =>
    cases n with
    | zero => rw [linesSize, firstLines]
    | succ n =>
      rw [linesSize, encoding_cons]
      split
      · next hc =>
        subst hc
        rw [ih]
        rfl
      · next hc =>
        rw [firstLines_append (lineFeed_not_mem hc), String.length_utf8EncodeChar, ih]

theorem linesSize_le (n : Nat) (cs : List Char) : linesSize n cs ≤ byteSize cs := by
  rw [linesSize_eq, byteSize_eq]
  exact firstLines_le n _

/-! ## Places -/

/-- The same of a place in a text. -/
theorem linesSize_add_afterLast {before : List UInt8} (h : before <+: encoding cs) :
    linesSize (before.count lineFeed) cs + (afterLast lineFeed before).length =
      before.length := by
  obtain ⟨bs, hbs⟩ := h
  rw [linesSize_eq, ← hbs, firstLines_add_afterLast]

theorem length_le_byteSize {before : List UInt8} (h : before <+: encoding cs) :
    before.length ≤ byteSize cs := by
  rw [byteSize_eq]
  exact h.length_le

/-- A byte is found from its line and its column. -/
theorem offsetOf_eq_length {before : List UInt8} (h : before <+: encoding cs) :
    offsetOf cs (1 + before.count lineFeed) (1 + (afterLast lineFeed before).length) =
      before.length := by
  rw [offsetOf, Nat.add_sub_cancel_left, Nat.add_sub_cancel_left, linesSize_add_afterLast h,
    Nat.min_eq_left (length_le_byteSize h)]

theorem offsetOf_zero (cs : List Char) (line : Nat) : offsetOf cs line 0 = offsetOf cs line 1 := rfl

/-- Further on in a line is further on in the text. -/
theorem offsetOf_mono_column (cs : List Char) (line : Nat) : Monotone (offsetOf cs line) :=
  fun _ _ h => min_le_min_right _ (Nat.add_le_add_left (Nat.sub_le_sub_right h 1) _)

theorem offsetOf_mono_line (cs : List Char) : Monotone fun line => offsetOf cs line 1 := by
  intro line line' h
  simp only [offsetOf, linesSize_eq]
  exact min_le_min_right _
    (Nat.add_le_add_right (firstLines_mono (encoding cs) (Nat.sub_le_sub_right h 1)) _)

theorem Place.after_eq (before : List UInt8) (n : Nat) (cs : List Char) :
    Place.after ⟨1 + before.count lineFeed, (afterLast lineFeed before).length⟩ n cs =
      ⟨1 + (before ++ (encoding cs).take n).count lineFeed,
        (afterLast lineFeed (before ++ (encoding cs).take n)).length⟩ := by
  induction cs generalizing before n with
  | nil => simp [Place.after, encoding]
  | cons c cs ih =>
    have hlength := String.length_utf8EncodeChar c
    -- The line and the column behind the character, or within it.
    have hline (ds : List UInt8) (hds : lineFeed ∉ ds) :
        (⟨1 + before.count lineFeed, (afterLast lineFeed before).length + ds.length⟩ : Place) =
          ⟨1 + (before ++ ds).count lineFeed, (afterLast lineFeed (before ++ ds)).length⟩ := by
      rw [afterLast_append hds, List.length_append, List.count_append,
        List.count_eq_zero_of_not_mem hds, Nat.add_zero]
    rw [Place.after, encoding_cons]
    split
    · next hlt =>
      rw [List.take_append_of_le_length (by omega)]
      have hnot : lineFeed ∉ (String.utf8EncodeChar c).take n := by
        by_cases hc : c = '\n'
        · subst hc
          obtain rfl : n = 0 := Nat.lt_one_iff.1 hlt
          exact List.not_mem_nil
        · exact fun hmem => lineFeed_not_mem hc (List.mem_of_mem_take hmem)
      rw [← hline _ hnot, List.length_take, Nat.min_eq_left (by omega)]
    · next hge =>
      rw [List.take_append, List.take_of_length_le (by omega), hlength, ← List.append_assoc, ← ih]
      split
      · next hc =>
        subst hc
        have hbytes : String.utf8EncodeChar '\n' = [lineFeed] := rfl
        rw [hbytes, afterLast_append_self, List.count_append, List.count_singleton_self,
          Nat.add_assoc]
        rfl
      · next hc => rw [← hline _ (lineFeed_not_mem hc), hlength]

/-- The place behind some bytes has as many lines before it as there are line feeds in them, and
    then the bytes since the last of these. -/
theorem placeOf_eq (n : Nat) (cs : List Char) :
    placeOf n cs =
      ⟨1 + ((encoding cs).take n).count lineFeed,
        (afterLast lineFeed ((encoding cs).take n)).length⟩ :=
  Place.after_eq [] n cs

/-- A text that cannot be read is reported at the last byte that was read, or at the beginning of
    the line if no byte of it was read. -/
theorem span_complaint (m : Misread) (text : List Char) :
    let read := (encoding text).take m.offset
    (m.complaint text).span =
      .empty (if (afterLast lineFeed read).length = 0 then read.length
        else read.length - 1) := by
  intro read
  have hread : read <+: encoding text := List.take_prefix _ _
  have hstart := linesSize_add_afterLast hread
  have hle := length_le_byteSize hread
  have hplace : placeOf m.offset text =
      ⟨1 + read.count lineFeed, (afterLast lineFeed read).length⟩ := placeOf_eq _ _
  simp only [Misread.complaint, hplace, offsetOf, Nat.add_sub_cancel_left]
  congr 1
  split <;> omega

/-- Every byte of a text is found from its line, as told by the line feeds before it, and its
    column, as told by the bytes since the last of these. Whatever line and column are asked for,
    the offset is in the text, no number on the way to it is greater than the size of the text and
    the column together, and it does not decrease when the column grows, or the line at column 1;
    there is no column before that one. -/
theorem offsetOf_inverts_line_column (text : String) :
    (∀ p ≤ text.utf8ByteSize,
      let before := text.toByteArray.data.toList.take p
      offsetOf text.toList (1 + before.count lineFeed)
        (1 + (afterLast lineFeed before).length) = p) ∧
    (∀ line column, offsetOf text.toList line column ≤ text.utf8ByteSize) ∧
    (∀ line column,
      linesSize (line - 1) text.toList + (column - 1) ≤ text.utf8ByteSize + column) ∧
    (∀ line, offsetOf text.toList line 0 = offsetOf text.toList line 1) ∧
    (∀ line, Monotone (offsetOf text.toList line)) ∧
    Monotone fun line => offsetOf text.toList line 1 := by
  have hsize : byteSize text.toList = text.utf8ByteSize := byteSize_toList text
  refine ⟨fun p hp => ?_, fun line column => ?_, fun line column => ?_, offsetOf_zero text.toList,
    offsetOf_mono_column text.toList, offsetOf_mono_line text.toList⟩
  · rw [← encoding_toList]
    intro before
    rw [← hsize, byteSize_eq] at hp
    rw [offsetOf_eq_length (List.take_prefix p _), List.length_take, Nat.min_eq_left hp]
  · exact (Nat.min_le_right _ _).trans_eq hsize
  · rw [← hsize]
    exact Nat.add_le_add (linesSize_le _ _) (Nat.sub_le _ _)

/-- The second byte of a letter of two bytes, behind an empty line, and the end of a text that has
    no line feed at its end. -/
theorem offsetOf_inverts_line_column_letter :
    let text := "[\n\né"
    4 ≤ text.utf8ByteSize ∧ 5 ≤ text.utf8ByteSize ∧
      offsetOf text.toList 3 2 = 4 ∧ offsetOf text.toList 3 3 = 5 ∧
      offsetOf text.toList 9 7 ≤ 5 := by
  intro text
  have hbytes : text.toByteArray.data.toList = [91, 10, 10, 195, 169] := by rfl
  have hsize : text.utf8ByteSize = 5 := by rfl
  obtain ⟨hinverts, hle, -⟩ := offsetOf_inverts_line_column text
  rw [hbytes] at hinverts
  refine ⟨?_, ?_, hinverts 4 ?_, hinverts 5 ?_, hsize ▸ hle 9 7⟩ <;> omega

end Frontend.Override
