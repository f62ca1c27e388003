import WasmLift.Proofs.Listing.Lines
import WasmLift.Proofs.Memory.Flattening

/-!
# Reading a dump

A reader for the dump of an image, line by line: the address of a row, its bytes from the column of
hexadecimal digits, and its bytes once more from the quoted text (`MemoryImage.readDump`). The two
readings of a row agree, and put together the rows are the image (`MemoryImage.dump_lossless`). So
no two images that are not empty have the same dump.
-/

namespace WasmLift

namespace Text

/-! ## Lines -/

/-- A line is split off at its line break. -/
theorem splitLines_line {line : List Char} (hline : '\n' ∉ line) (rest : List Char) :
    splitLines (line ++ '\n' :: rest) = (line ++ ['\n']) :: splitLines rest := by
  induction line with
  | nil => simp [splitLines]
  | cons c line ih =>
    obtain ⟨hc, hline⟩ := not_or.1 (mt List.mem_cons.2 hline)
    simp [splitLines, Ne.symm hc, ih hline]

/-- Only the line break is taken off a line that does not end in a carriage return. -/
theorem chomp_line {line : List Char} (hlast : line.getLast? ≠ some '\r') :
    chomp (line ++ ['\n']) = line := by
  rw [chomp, List.reverse_append, List.reverse_singleton, List.singleton_append]
  split
  · next rest heq =>
    have hreverse : line.reverse = '\r' :: rest := (List.cons.inj heq).2
    rw [List.getLast?_eq_head?_reverse, hreverse] at hlast
    exact absurd rfl hlast
  · next heq => rw [← (List.cons.inj heq).2, List.reverse_reverse]
  · next hother => exact (hother line.reverse rfl).elim

/-- A text that begins with a line is that line and the lines of what follows it. -/
theorem lines_line {line : List Char} (hline : '\n' ∉ line) (hlast : line.getLast? ≠ some '\r')
    (rest : List Char) : lines (line ++ '\n' :: rest) = line :: lines rest := by
  rw [lines, splitLines_line hline, List.map_cons, chomp_line hlast]
  rfl

/-! ## One line -/

/-- A padded number is on one line. -/
theorem oneLine_hexPadded (width n : Nat) : '\n' ∉ hexPadded width n := by
  have hdigits : '\n' ∉ hexDigits n := toDigits_oneLine (by decide) (by decide) n
  simp [hexPadded, List.leftpad, hdigits]

/-- An escaped byte is on one line. -/
theorem oneLine_escapeByte (b : UInt8) : '\n' ∉ escapeByte b := by
  unfold escapeByte
  split
  · decide
  split
  · decide
  split
  · decide
  split
  · decide
  split
  · decide
  split
  · next hprintable =>
    -- a printable byte is at least a space, and the line feed comes before the space
    obtain ⟨hspace, -⟩ := isPrintable_toNat hprintable
    rw [← toNat_ofNat_byte] at hspace
    rw [List.mem_singleton]
    intro heq
    rw [← heq] at hspace
    exact absurd hspace (by decide)
  · have := oneLine_hexPadded 2 b.toNat
    simp [this]

/-- Escaped bytes stay on one line. -/
theorem oneLine_escape (bytes : List UInt8) : OneLine (escape bytes) := by
  simp [escape, oneLine_escapeByte]

end Text

namespace MemoryImage

/-! ## The reader -/

/-- A row of a dump as it is read: its address, its bytes from the column of digits, and its bytes
from the quoted text. -/
structure DumpLine where
  address : Nat
  bytes : List UInt8
  text : List UInt8
deriving DecidableEq, Repr

/-- Reads the digits of an address up to the colon behind it; gives the address and what follows. -/
def readAddress : (value : Nat) → List Char → Option (Nat × List Char)
  | value, ':' :: ' ' :: rest => some (value, rest)
  | value, c :: rest => do readAddress (16 * value + (← Text.hexValue? c)) rest
  | _, [] => none

/-- Reads pairs of digits up to the colon behind them; gives the bytes and what follows. -/
def readColumn : List Char → Option (List UInt8 × List Char)
  | high :: low :: ' ' :: ':' :: ' ' :: rest => do
    let b ← Text.hexPair? high low
    return ([b], rest)
  | high :: low :: ' ' :: rest => do
    let b ← Text.hexPair? high low
    let (bytes, rest) ← readColumn rest
    return (b :: bytes, rest)
  | _ => none

/-- Reads a row. -/
def readRow : List Char → Option DumpLine
  | '/' :: '/' :: ' ' :: rest => do
    let (address, rest) ← readAddress 0 rest
    let (bytes, rest) ← readColumn rest
    match rest with
    | '"' :: rest =>
      let (text, rest) ← Text.readQuoted rest
      if rest.isEmpty then some ⟨address, bytes, text⟩ else none
    | _ => none
  | _ => none

/-- The line above the rows. -/
def banner : List Char :=
  "/****INITIALIZED MEMORY DUMP****/".toList

/-- Reads the rows of a dump, below its banner. -/
def readDump (dump : String) : Option (List DumpLine) :=
  match Text.lines dump.toList with
  | [] :: line :: rows => if line = banner then rows.mapM readRow else none
  | _ => none

/-- The image that rows show: it begins at the address of the first one. -/
def ofRows? (rows : List DumpLine) : Option MemoryImage :=
  rows.head?.map fun first =>
    let bytes := rows.flatMap (·.bytes)
    ⟨first.address, first.address + bytes.length, bytes⟩

/-! ## Columns -/

/-- A digit is read as the next one of the address. -/
theorem readAddress_digit {c : Char} {d : Nat} (hc : Text.hexValue? c = some d) (value : Nat)
    (rest : List Char) : readAddress value (c :: rest) = readAddress (16 * value + d) rest := by
  rw [readAddress.eq_def]
  split
  · next heq =>
    rw [(List.cons.inj heq).1] at hc
    cases hc
  · next heq =>
    cases heq
    rw [hc]
    rfl
  · next heq => cases heq

/-- Zeros in front of an address do not count. -/
theorem readAddress_zeros (n : Nat) (rest : List Char) :
    readAddress 0 (List.replicate n '0' ++ rest) = readAddress 0 rest := by
  induction n with
  | zero => rfl
  | succ n ih => exact (readAddress_digit rfl 0 _).trans ih

/-- The digits of an address are read back as the address. -/
theorem readAddress_hexDigits (n : Nat) (rest : List Char) :
    readAddress 0 (Text.hexDigits n ++ rest) = readAddress n rest := by
  induction n using Nat.strongRecOn generalizing rest with
  | ind n ih =>
  rw [Text.hexDigits]
  by_cases hn : n < 16
  · rw [Nat.toDigits_of_lt_base hn]
    simpa using readAddress_digit (Text.hexValue?_of_lt hn) 0 rest
  · have hlast := Text.hexValue?_of_lt (Nat.mod_lt n (show 0 < 16 by decide))
    rw [Nat.toDigits_of_base_le (by decide) (Nat.not_lt.1 hn), List.append_assoc]
    show readAddress 0 (Text.hexDigits (n / 16) ++ _) = _
    rw [ih (n / 16) (Nat.div_lt_self (by omega) (by decide)), List.singleton_append,
      readAddress_digit hlast, Nat.div_add_mod]

/-- An address is read back, however many digits it has. -/
theorem readAddress_hexPadded (width n : Nat) (rest : List Char) :
    readAddress 0 (Text.hexPadded width n ++ (':' :: ' ' :: rest)) = some (n, rest) := by
  rw [Text.hexPadded, List.leftpad, List.append_assoc, readAddress_zeros, readAddress_hexDigits]
  rfl

/-- The column of digits of a row. -/
def column (row : List UInt8) : List Char :=
  List.intercalate [' '] (row.map fun b => Text.hexPadded 2 b.toNat)

/-- The last byte of a row is printed as two digits. -/
theorem column_singleton (b : UInt8) :
    column [b] = [(b.toNat / 16).digitChar, (b.toNat % 16).digitChar] := by
  simp [column, Text.hexPadded_byte]

/-- The other bytes of a row are printed as two digits and a space. -/
theorem column_cons (b c : UInt8) (row : List UInt8) :
    column (b :: c :: row) =
      (b.toNat / 16).digitChar :: (b.toNat % 16).digitChar :: ' ' :: column (c :: row) := by
  simp [column, Text.hexPadded_byte]

/-- No digit is a colon. -/
theorem digitChar_ne_colon : ∀ d : Fin 16, Nat.digitChar d ≠ ':' := by
  decide

/-- A column begins with a digit, not with the colon that ends it. -/
theorem column_head (b : UInt8) (row : List UInt8) :
    ∃ digit rest, column (b :: row) = digit :: rest ∧ digit ≠ ':' := by
  have hb := b.toNat_lt
  have hdigit := digitChar_ne_colon ⟨b.toNat / 16, by omega⟩
  cases row with
  | nil => exact ⟨_, _, column_singleton b, hdigit⟩
  | cons c row => exact ⟨_, _, column_cons b c row, hdigit⟩

/-- Two digits are read back as the byte, where no colon follows. -/
theorem readColumn_digits (b : UInt8) {next : Char} (hnext : next ≠ ':') (rest : List Char) :
    readColumn ((b.toNat / 16).digitChar :: (b.toNat % 16).digitChar :: ' ' :: next :: rest) =
      (readColumn (next :: rest)).map fun read => (b :: read.1, read.2) := by
  rw [readColumn.eq_def]
  split
  · next heq =>
    simp only [List.cons.injEq] at heq
    exact absurd heq.2.2.2.1 hnext
  · next heq =>
    cases heq
    rw [Text.hexPair?_byte]
    cases readColumn (next :: rest) <;> rfl
  · next hother => exact (hother _ _ _ rfl).elim

/-- The column is read back up to the colon behind it. -/
theorem readColumn_column {row : List UInt8} (hrow : row ≠ []) (rest : List Char) :
    readColumn (column row ++ (' ' :: ':' :: ' ' :: rest)) = some (row, rest) := by
  induction row with
  | nil => exact absurd rfl hrow
  | cons b row ih =>
    cases row with
    | nil =>
      rw [column_singleton]
      simp [readColumn, Text.hexPair?_byte]
    | cons c row =>
      have hread := ih (List.cons_ne_nil c row)
      obtain ⟨digit, digits, hcolumn, hdigit⟩ := column_head c row
      rw [hcolumn, List.cons_append] at hread
      simp only [column_cons, hcolumn, List.cons_append]
      rw [readColumn_digits b hdigit, hread]
      rfl

/-- The column of bytes is on one line. -/
theorem oneLine_column (row : List UInt8) : '\n' ∉ column row := by
  induction row with
  | nil => simp [column]
  | cons b row ih =>
    cases row with
    | nil => simp [column_singleton]
    | cons c row => simp [column_cons, ih]

/-! ## Rows -/

/-- A row without its line break. -/
def rowLine (address : Nat) (row : List UInt8) : List Char :=
  '/' :: '/' :: ' ' :: (Text.hexPadded 8 address ++ (':' :: ' ' ::
    (column row ++ (' ' :: ':' :: ' ' :: '"' :: ((Text.escape row).toList ++ ['"'])))))

/-- A row is its line and a line break. -/
theorem dumpRow_toList (address : Nat) (row : List UInt8) :
    (dumpRow address row).toList = rowLine address row ++ ['\n'] := by
  simp [dumpRow, rowLine, column]

/-- A row is read back: its bytes are those of the column and those of the text. -/
theorem readRow_rowLine (address : Nat) {row : List UInt8} (hrow : row ≠ []) :
    readRow (rowLine address row) = some ⟨address, row, row⟩ := by
  simp only [rowLine, readRow, readAddress_hexPadded, readColumn_column hrow,
    Text.readQuoted_escape, Option.bind_eq_bind, Option.bind_some]
  rfl

/-- The line of a row has no line break in it. -/
theorem oneLine_rowLine (address : Nat) (row : List UInt8) : '\n' ∉ rowLine address row := by
  have haddress := Text.oneLine_hexPadded 8 address
  have hescape : '\n' ∉ (Text.escape row).toList := Text.oneLine_escape row
  simp [rowLine, haddress, oneLine_column, hescape]

/-- The line of a row ends in a quote. -/
theorem getLast?_rowLine (address : Nat) (row : List UInt8) :
    (rowLine address row).getLast? = some '"' := by
  simp [rowLine, List.getLast?_append, List.getLast?_cons]

/-- The rows show bytes from an address on: put together they are the bytes, each row but the last
has the full size, and its address and its text agree with its bytes. -/
structure RowsShow (address : Nat) (bytes : List UInt8) (rows : List DumpLine) : Prop where
  whole : rows.flatMap (·.bytes) = bytes
  row : ∀ i row, rows[i]? = some row → row.address = address + rowSize * i ∧
    row.bytes = (bytes.drop (rowSize * i)).take rowSize ∧ row.bytes ≠ [] ∧ row.text = row.bytes

/-- No rows show no bytes. -/
theorem RowsShow.nil (address : Nat) : RowsShow address [] [] :=
  ⟨rfl, by simp⟩

/-- A full row before rows that go on after it. -/
theorem RowsShow.cons {address : Nat} {bytes : List UInt8} {rows : List DumpLine}
    (hbytes : bytes ≠ []) (h : RowsShow (address + rowSize) (bytes.drop rowSize) rows) :
    RowsShow address bytes (⟨address, bytes.take rowSize, bytes.take rowSize⟩ :: rows) := by
  refine ⟨?_, ?_⟩
  · rw [List.flatMap_cons, h.whole, List.take_append_drop]
  · intro i row hrow
    cases i with
    | zero =>
      cases hrow
      exact ⟨rfl, rfl, by simpa [rowSize] using hbytes, rfl⟩
    | succ i =>
      obtain ⟨haddress, hchunk, hshows⟩ := h.row i row hrow
      refine ⟨?_, ?_, hshows⟩
      · rw [haddress, Nat.mul_succ]
        omega
      · rw [hchunk, List.drop_drop, Nat.mul_succ, Nat.add_comm]

/-- No row reaches beyond the bytes. -/
theorem RowsShow.stop_le {address i : Nat} {bytes : List UInt8} {rows : List DumpLine}
    {row : DumpLine} (h : RowsShow address bytes rows) (hrow : rows[i]? = some row) :
    row.address + row.bytes.length ≤ address + bytes.length := by
  obtain ⟨haddress, hchunk, hfull, -⟩ := h.row i row hrow
  have hpositive := List.length_pos_of_ne_nil hfull
  have hsize : row.bytes.length ≤ bytes.length - rowSize * i := by
    rw [hchunk, List.length_take, List.length_drop]
    exact Nat.min_le_right _ _
  omega

/-- Enough fuel for the bytes writes all of their rows, and they are read back. -/
theorem readRows_dumpRows {fuel : Nat} (address : Nat) {bytes : List UInt8}
    (hfuel : bytes.length ≤ fuel) :
    ∃ rows, (Text.lines (dumpRows fuel address bytes).toList).mapM readRow = some rows ∧
      RowsShow address bytes rows := by
  induction fuel generalizing address bytes with
  | zero =>
    cases List.eq_nil_of_length_eq_zero (Nat.le_zero.1 hfuel)
    exact ⟨[], rfl, .nil address⟩
  | succ fuel ih =>
    cases bytes with
    | nil => exact ⟨[], rfl, .nil address⟩
    | cons b bytes =>
      have hrest : ((b :: bytes).drop rowSize).length ≤ fuel := by
        rw [List.length_drop, rowSize]
        omega
      obtain ⟨rows, hread, hrows⟩ := ih (address + rowSize) hrest
      have hchunk : (b :: bytes).take rowSize ≠ [] := by simp [rowSize]
      refine ⟨_, ?_, hrows.cons (List.cons_ne_nil b bytes)⟩
      rw [dumpRows, if_neg (by simp), String.toList_append, dumpRow_toList, List.append_assoc,
        List.singleton_append, Text.lines_line (oneLine_rowLine _ _) (by simp [getLast?_rowLine]),
        List.mapM_cons, readRow_rowLine address hchunk, hread]
      rfl

/-! ## The whole dump -/

/-- The addresses of an image are those of the address space. -/
theorem max_lt {segments : List DataSegment} {image : MemoryImage}
    (himage : ofSegments segments = .ok image) : image.max < 2 ^ 64 := by
  have hends : ∀ s ∈ segments, s.stop < 2 ^ 64 := by
    intro s hs
    by_contra hstop
    obtain ⟨cause, herror⟩ := (ofSegments_error_iff segments).2 (.inl ⟨s, hs, Nat.not_lt.1 hstop⟩)
    rw [himage] at herror
    cases herror
  rw [(flattens_of_ofSegments himage).max, highest]
  cases hmax : (segments.map (·.stop)).max? with
  | none => decide
  | some max =>
    obtain ⟨s, hs, rfl⟩ := List.mem_map.1 (List.max?_mem hmax)
    exact hends s hs

/-- A dump is a banner and the rows below it. -/
theorem dump_toList (image : MemoryImage) :
    image.dump.toList = '\n' :: (banner ++
      '\n' :: (dumpRows image.bytes.length image.min image.bytes).toList) := by
  have hbanner : "\n/****INITIALIZED MEMORY DUMP****/\n".toList = '\n' :: (banner ++ ['\n']) := by
    decide
  unfold dump
  rw [String.toList_append, hbanner, List.cons_append, List.append_assoc, List.singleton_append]

/-- The rows of a dump show the bytes of the image from its first address on. -/
theorem readDump_dump (image : MemoryImage) :
    ∃ rows, readDump image.dump = some rows ∧ RowsShow image.min image.bytes rows := by
  obtain ⟨rows, hread, hrows⟩ := readRows_dumpRows image.min (Nat.le_refl image.bytes.length)
  have hblank := Text.lines_line (show '\n' ∉ [] by decide) (by decide)
  have hbanner := Text.lines_line (show '\n' ∉ banner by decide) (by decide)
  refine ⟨rows, ?_, hrows⟩
  rw [readDump, dump_toList, ← List.nil_append (_ :: _), hblank, hbanner]
  exact (if_pos rfl).trans hread

/-- Rows that show the bytes of an image, which is not empty, make it up. -/
theorem RowsShow.ofRows? {image : MemoryImage} {rows : List DumpLine}
    (h : RowsShow image.min image.bytes rows) (hlength : image.min + image.bytes.length = image.max)
    (hne : image.isEmpty = false) : ofRows? rows = some image := by
  cases rows with
  | nil =>
    have hnil : [] = image.bytes := h.whole
    simp [isEmpty, ← hnil] at hne
  | cons first rows =>
    obtain ⟨hfirst, -⟩ := h.row 0 first rfl
    have haddress : first.address = image.min := by simpa using hfirst
    simp only [MemoryImage.ofRows?, List.head?_cons, Option.map_some, h.whole, haddress, hlength]

/-- A dump loses nothing. For every image of segments that is not empty, the rows read from its dump
make up the image. Row after row the address goes up by the size of a row, within the address space,
and the quoted text stands for the same bytes as the digits. No other such image has this dump. -/
theorem dump_lossless {segments : List DataSegment} {image : MemoryImage}
    (himage : ofSegments segments = .ok image) (hne : image.isEmpty = false) :
    (∃ rows, readDump image.dump = some rows ∧ ofRows? rows = some image ∧
      ∀ i row, rows[i]? = some row → row.address = image.min + rowSize * i ∧
        row.address + row.bytes.length < 2 ^ 64 ∧
        row.bytes = (image.bytes.drop (rowSize * i)).take rowSize ∧ row.text = row.bytes) ∧
    ∀ segments' other, ofSegments segments' = .ok other → other.isEmpty = false →
      other.dump = image.dump → other = image := by
  obtain ⟨rows, hread, hrows⟩ := readDump_dump image
  have hrebuilt := hrows.ofRows? (length_ofSegments himage) hne
  refine ⟨⟨rows, hread, hrebuilt, ?_⟩, ?_⟩
  · intro i row hrow
    obtain ⟨haddress, hchunk, -, htext⟩ := hrows.row i row hrow
    refine ⟨haddress, ?_, hchunk, htext⟩
    calc row.address + row.bytes.length
        ≤ image.min + image.bytes.length := hrows.stop_le hrow
      _ = image.max := length_ofSegments himage
      _ < 2 ^ 64 := max_lt himage
  · intro segments' other hother hother_ne hdump
    obtain ⟨rows', hread', hrows'⟩ := readDump_dump other
    rw [hdump, hread] at hread'
    cases hread'
    exact Option.some.inj
      ((hrows'.ofRows? (length_ofSegments hother) hother_ne).symm.trans hrebuilt)

/-- Bytes of all kinds, in two rows on both sides of the addresses of eight digits. -/
def crossing : DataSegment :=
  ⟨0xfffffff8, [0x22, 0x5c, 0x0a, 0x0d, 0x09, 0x00, 0x31, 0x7f, 0x20, 0x7e, 0xff, 0x61, 0x62, 0x63,
    0x64, 0x65, 0x66, 0x00]⟩

/-- The rows of an image are read back also where their addresses take a digit more. -/
theorem dump_lossless_crossing : ∃ rows,
    readDump (dump ⟨0xfffffff8, 0x10000000a, crossing.bytes⟩) = some rows ∧
      ofRows? rows = some ⟨0xfffffff8, 0x10000000a, crossing.bytes⟩ := by
  obtain ⟨⟨rows, hread, hrebuilt, -⟩, -⟩ := dump_lossless (show ofSegments [crossing] =
    .ok ⟨0xfffffff8, 0x10000000a, crossing.bytes⟩ from rfl) rfl
  exact ⟨rows, hread, hrebuilt⟩

end MemoryImage

end WasmLift
