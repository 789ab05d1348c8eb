import ProofOfStorage.FileWriter
import ProofOfStorage.FoundationNumerals

/-! # The metadata of an encoded file as JSON

The record is printed with the fields in their order and no spaces, numbers in decimal and the
identifier as a string of 26 digits. It is read by another crate.
-/
namespace FileRecords

open FoundationNumerals FileWriter

def ascii (s : String) : List UInt8 := s.toList.map fun c => c.toNat.toUInt8

def decimalDigits : List UInt8 := ascii "0123456789"

def ulidDigits : List UInt8 := ascii "0123456789ABCDEFGHJKMNPQRSTVWXYZ"

def usizeToJson (n : ℕ) : List UInt8 := numeral decimalDigits 1 n

def ulidToString (ulid : Ulid) : List UInt8 := numeral ulidDigits 26 ulid.toNat

def key (name : String) : List UInt8 := ascii ",\"" ++ ascii name ++ ascii "\":"

def toJson (metadata : EncodedFileMetadata) : List UInt8 :=
  ascii "\x7b\"ulid\":\"" ++ (ulidToString metadata.ulid ++ (ascii "\"" ++
    (key "pre_encoded_size" ++ (usizeToJson metadata.preEncodedSize ++
    (key "encoded_size" ++ (usizeToJson metadata.encodedSize ++
    (key "rows_written" ++ (usizeToJson metadata.rowsWritten ++
    (key "row_capacity" ++ (usizeToJson metadata.rowCapacity ++
    (key "bytes_of_data" ++ (usizeToJson metadata.bytesOfData ++ ascii "\x7d"))))))))))))

def isJsonSpace (c : UInt8) : Bool := c == 32 || c == 9 || c == 10 || c == 13

/-- `read_to_string` and `serde_json::from_str`: what was printed is read back, and only
whitespace may follow it. -/
structure MetadataReader where
  fromStr : List UInt8 → Option EncodedFileMetadata
  fromStr_toJson_append : ∀ metadata rest, fromStr (toJson metadata ++ rest) =
    if rest.all isJsonSpace = true then some metadata else none

section Printing

variable {metadata metadata' : EncodedFileMetadata}

theorem length_ulidToString (ulid : Ulid) : (ulidToString ulid).length = 26 := by
  refine length_numeral_of_lt (by decide) (lt_of_lt_of_le ulid.isLt ?_)
  decide

def printedDigits (metadata : EncodedFileMetadata) : ℕ :=
  (usizeToJson metadata.preEncodedSize).length + (usizeToJson metadata.encodedSize).length +
    (usizeToJson metadata.rowsWritten).length + (usizeToJson metadata.rowCapacity).length +
    (usizeToJson metadata.bytesOfData).length

theorem length_usizeToJson_le {m n : ℕ} (h : m ≤ n) :
    (usizeToJson m).length ≤ (usizeToJson n).length := length_numeral_le h

theorem length_toJson_le_iff : (toJson metadata).length ≤ (toJson metadata').length ↔
    printedDigits metadata ≤ printedDigits metadata' := by
  simp only [toJson, printedDigits, List.length_append, length_ulidToString]
  omega

theorem printedDigits_le (hpre : metadata.preEncodedSize = metadata'.preEncodedSize)
    (henc : metadata.encodedSize = metadata'.encodedSize)
    (hcounters : (usizeToJson metadata.rowsWritten).length +
      (usizeToJson metadata.rowCapacity).length ≤ (usizeToJson metadata'.rowsWritten).length +
        (usizeToJson metadata'.rowCapacity).length)
    (hbytes : metadata.bytesOfData ≤ metadata'.bytesOfData) :
    printedDigits metadata ≤ printedDigits metadata' := by
  have hlen := length_usizeToJson_le hbytes
  rw [printedDigits, printedDigits, hpre, henc]
  omega

theorem getLast?_toJson (metadata : EncodedFileMetadata) :
    (toJson metadata).getLast? = some 125 := by
  have hlast : (ascii "\x7d").getLast? = some 125 := rfl
  simp [toJson, List.getLast?_append, hlast]

theorem MetadataReader.fromStr_toJson (reader : MetadataReader) (metadata : EncodedFileMetadata) :
    reader.fromStr (toJson metadata) = some metadata := by
  have hread := reader.fromStr_toJson_append metadata []
  rwa [List.append_nil] at hread

/-- A rest of a longer record that stays behind a shorter one cannot be read. -/
theorem MetadataReader.fromStr_stale (reader : MetadataReader)
    (h : (toJson metadata').length < (toJson metadata).length) :
    reader.fromStr (toJson metadata' ++ (toJson metadata).drop (toJson metadata').length) =
      none := by
  have hmem : (125 : UInt8) ∈ (toJson metadata).drop (toJson metadata').length := by
    apply List.mem_of_getLast?
    rw [List.getLast?_drop, if_neg (by omega), getLast?_toJson]
  rw [reader.fromStr_toJson_append, if_neg]
  intro hall
  exact absurd (List.all_eq_true.mp hall _ hmem) (by decide)

end Printing

def expect (literal text : List UInt8) : Option (List UInt8) :=
  if literal <+: text then some (text.drop literal.length) else none

def readSize (name : String) (text : List UInt8) : Option (ℕ × List UInt8) := do
  let text ← expect (key name) text
  return (value decimalDigits (text.takeWhile (· ∈ decimalDigits)),
    text.dropWhile (· ∈ decimalDigits))

/-- A reader for records as they are printed. -/
def readMetadata (text : List UInt8) : Option EncodedFileMetadata := do
  let text ← expect (ascii "\x7b\"ulid\":\"") text
  let ulid := BitVec.ofNat 128 (value ulidDigits (text.take 26))
  let text ← expect (ascii "\"") (text.drop 26)
  let (preEncodedSize, text) ← readSize "pre_encoded_size" text
  let (encodedSize, text) ← readSize "encoded_size" text
  let (rowsWritten, text) ← readSize "rows_written" text
  let (rowCapacity, text) ← readSize "row_capacity" text
  let (bytesOfData, text) ← readSize "bytes_of_data" text
  let text ← expect (ascii "\x7d") text
  if text.all isJsonSpace = true then
    some ⟨ulid, preEncodedSize, encodedSize, rowsWritten, rowCapacity, bytesOfData⟩
  else none

section Reading

variable {rest : List UInt8}

@[simp] theorem expect_append (literal rest : List UInt8) :
    expect literal (literal ++ rest) = some rest := by
  rw [expect, if_pos (List.prefix_append _ _), List.drop_left]

theorem readSize_append {name : String} (n : ℕ) (h : ∀ c ∈ rest.head?, c ∉ decimalDigits) :
    readSize name (key name ++ (usizeToJson n ++ rest)) = some (n, rest) := by
  have hlen : 1 < decimalDigits.length := by decide
  have hnodup : decimalDigits.Nodup := by decide
  rw [readSize, expect_append, usizeToJson]
  change some (value _ (List.takeWhile _ (_ ++ rest)), List.dropWhile _ (_ ++ rest)) = _
  rw [takeWhile_numeral hlen h, dropWhile_numeral hlen h, value_numeral hlen hnodup]

theorem readMetadata_toJson_append (metadata : EncodedFileMetadata) (rest : List UInt8) :
    readMetadata (toJson metadata ++ rest) =
      if rest.all isJsonSpace = true then some metadata else none := by
  have hulid : value ulidDigits (ulidToString metadata.ulid) = metadata.ulid.toNat :=
    value_numeral (by decide) (by decide)
  have hcomma (name : String) (text : List UInt8) :
      ∀ c ∈ (key name ++ text).head?, c ∉ decimalDigits := by
    rintro c hc
    obtain rfl : 44 = c := Option.some.inj hc
    decide
  have hbrace : ∀ c ∈ (ascii "\x7d" ++ rest).head?, c ∉ decimalDigits := by
    rintro c hc
    obtain rfl : 125 = c := Option.some.inj hc
    decide
  have htake (text : List UInt8) : (ulidToString metadata.ulid ++ text).take 26 =
      ulidToString metadata.ulid := List.take_left' (length_ulidToString _)
  have hdrop (text : List UInt8) : (ulidToString metadata.ulid ++ text).drop 26 = text :=
    List.drop_left' (length_ulidToString _)
  simp only [toJson, List.append_assoc]
  simp only [readMetadata, expect_append, Option.bind_eq_bind, Option.bind_some, htake, hdrop,
    readSize_append _ (hcomma _ _), readSize_append _ hbrace, hulid, BitVec.ofNat_toNat,
    BitVec.setWidth_eq]

end Reading

def metadataReader : MetadataReader := ⟨readMetadata, readMetadata_toJson_append⟩

end FileRecords
