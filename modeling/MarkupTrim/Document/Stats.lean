/-!
# Byte counts

What a document took in and gave out, in UTF-8 bytes. Empty fragments are not counted.
-/

namespace MarkupTrim

/-- The byte counts of a document. -/
structure Stats where
  /-- Fragments processed that were not empty. -/
  fragments : Nat := 0
  /-- Bytes taken in. -/
  bytesIn : Nat := 0
  /-- Bytes given out. -/
  bytesOut : Nat := 0
deriving DecidableEq, Repr

namespace Stats

/-- The bytes saved: never below zero, even when the spaces put in outweigh those taken out. -/
def saved (stats : Stats) : Nat := stats.bytesIn - stats.bytesOut

/-- The counts after one more fragment. -/
def count (stats : Stats) (input output : String) : Stats where
  fragments := stats.fragments + 1
  bytesIn := stats.bytesIn + input.utf8ByteSize
  bytesOut := stats.bytesOut + output.utf8ByteSize

end Stats

end MarkupTrim
