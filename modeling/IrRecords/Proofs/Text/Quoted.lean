import IrRecords.Text.Quoted
import IrRecords.Text.Utf8

/-!
# Reading what was quoted

Quoting a name writes its bytes one by one (`Text.escapeByte`), each as itself or as an escape, and
reading quoted text undoes this byte by byte. That a plain byte is one character and an escape three
does not show behind the reading, which answers bytes. The bytes of a name are then a name again.
-/

namespace IrRecords

/-- The bytes of a text make this text. -/
theorem Utf8.decode?_encode (cs : List Char) : decode? (encode cs) = some (String.ofList cs) := by
  have hbytes : (⟨(encode cs).toArray⟩ : ByteArray) = (String.ofList cs).toByteArray := by
    rw [String.toByteArray_ofList, List.utf8Encode, encode]
    exact ByteArray.ext List.data_toByteArray.symm
  -- `encode` writes what strings are made of, so decoding cannot fail on it.
  rw [decode?, hbytes, String.fromUTF8?, dif_pos (String.ofList cs).isValidUTF8]
  rfl

/-- What bytes make is a text that has these bytes. -/
theorem Utf8.encode_of_decode? {bytes : List UInt8} {text : String} (h : decode? bytes = some text) :
    encode text.toList = bytes := by
  rw [decode?, String.fromUTF8?] at h
  split at h
  · next hvalid =>
    cases h
    have hbytes : (String.ofList (String.fromUTF8 ⟨bytes.toArray⟩ hvalid).toList).toByteArray
        = List.utf8Encode _ := String.toByteArray_ofList
    rw [String.ofList_toList] at hbytes
    have hrow := congrArg (·.data.toList) hbytes
    simpa [String.fromUTF8, List.utf8Encode, encode] using hrow.symm
  · cases h

namespace Text

/-- There are 256 bytes, so what is decided for as many numbers is known of all bytes. -/
theorem forall_byte {P : UInt8 → Prop} (h : ∀ n < 256, P (UInt8.ofNat n)) (b : UInt8) : P b := by
  have hb := h b.toNat b.toNat_lt
  rwa [UInt8.ofNat_toNat] at hb

/-- A plain byte is a character of its own, and none that quoting cares about. -/
theorem plain_byte (b : UInt8) (h : isPlainByte b = true) :
    String.utf8EncodeChar (Char.ofNat b.toNat) = [b] ∧ Char.ofNat b.toNat ≠ '"'
      ∧ Char.ofNat b.toNat ≠ '\\' := by
  revert b
  exact forall_byte (by decide +kernel)

/-- The two digits of an escape name their byte, and the first is no backslash. -/
theorem escapedByte?_digits (b : UInt8) :
    escapedByte? (hexDigit (b.toNat / 16)) (hexDigit (b.toNat % 16)) = some b
      ∧ hexDigit (b.toNat / 16) ≠ '\\' := by
  revert b
  exact forall_byte (by decide +kernel)

/-- A backslash that starts no escape stands for itself. -/
theorem readQuoted_backslash {c : Char} {cs : List Char} (hc : c ≠ '\\')
    (hcs : ∀ d ds, cs = d :: ds → escapedByte? c d = none) :
    readQuoted ('\\' :: c :: cs)
      = (readQuoted (c :: cs)).map (prepend [0x5C] 1) := by
  cases cs with
  | nil =>
    rw [readQuoted]
    · rfl
    all_goals simp [hc]
  | cons d ds =>
    rw [readQuoted, hcs d ds rfl]
    exact hc

/-- **Reading quoted text undoes quoting**, and stops behind the closing quote. -/
theorem readQuoted_escape (bytes : List UInt8) (cs : List Char) :
    readQuoted (bytes.flatMap escapeByte ++ '"' :: cs)
      = some (bytes, (bytes.flatMap escapeByte).length + 1) := by
  induction bytes with
  | nil => rfl
  | cons b bytes ih =>
    rw [List.flatMap_cons, List.append_assoc, List.length_append]
    by_cases hplain : isPlainByte b = true
    · -- A plain byte is one character, which stands for itself.
      obtain ⟨hencode, hquote, hslash⟩ := plain_byte b hplain
      rw [escapeByte, if_pos hplain, List.singleton_append, readQuoted, ih, hencode]
      · rw [Option.map_some, prepend, List.singleton_append, List.length_singleton,
          Nat.add_assoc]
      all_goals exact fun h => by simp_all
    · -- An escape is three characters, and what follows its backslash is not another one.
      obtain ⟨hbyte, hslash⟩ := escapedByte?_digits b
      rw [escapeByte, if_neg hplain]
      simp only [List.cons_append, List.nil_append]
      rw [readQuoted, hbyte, ih]
      · simp only [Option.map_some, prepend, List.singleton_append, List.length_cons,
          List.length_nil]
        exact congrArg (fun n => some (b :: bytes, n)) (by omega)
      · exact fun h => hslash h

/-- A name that is not bare is written between quotes. -/
theorem quoteName_of_not_isBare {name : String} (h : isBare name.toList = false) :
    (quoteName name).toList
      = '"' :: ((Utf8.encode name.toList).flatMap escapeByte ++ ['"']) := by
  rw [quoteName, h]
  exact String.toList_ofList

theorem quoteName_of_isBare {name : String} (h : isBare name.toList = true) :
    quoteName name = name := by
  rw [quoteName, if_pos h]

/-- What is written between quotes has no line break in it. -/
theorem newline_not_mem_escape (bytes : List UInt8) : '\n' ∉ bytes.flatMap escapeByte := by
  have hbyte : ∀ b, '\n' ∉ escapeByte b := forall_byte (by decide +kernel)
  intro h
  obtain ⟨b, _, hb⟩ := List.mem_flatMap.mp h
  exact hbyte b hb

end Text

end IrRecords
