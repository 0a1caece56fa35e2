/-
  File:      InpLabs/Lib/Header.lean
  Subject:   Header sections: lines that end with CR LF, and an empty line behind them.

  * `headerSection`: the bytes of a list of lines; `Plain`: the lines that may stand in it;
  * `readHeader`: the reader, which takes a bare LF for the end of a line, too;
  * `readHeader_section`: it reads the lines that were written and stops behind the empty one.
-/
import InpLabs.Lib.Cxx

namespace InpLabs.Lib

/-! ## 1. Writing -/

def cr : UInt8 := 13

def lf : UInt8 := 10

def crlf : Bytes := [cr, lf]

/-- The lines, each with its end, and the empty line. -/
def headerSection (lines : List Bytes) : Bytes := lines.flatMap (· ++ crlf) ++ crlf

/-- A line that is not empty and ends where it is ended. -/
structure Plain (line : Bytes) : Prop where
  ne_nil : line ≠ []
  no_cr : cr ∉ line
  no_lf : lf ∉ line

/-! ## 2. Reading -/

/-- A line without the CR before its LF. -/
def endLine (line : Bytes) : Bytes := if line.getLast? = some cr then line.dropLast else line

/-- The lines of a header section, and what follows it; `line` is what is read of the first line so
far. There is none where the empty line is missing. -/
def readHeader (line : Bytes) : Bytes → Option (List Bytes × Bytes)
  | [] => none
  | c :: rest =>
    if c = lf then
      if endLine line = [] then some ([], rest)
      else (readHeader [] rest).map fun r => (endLine line :: r.1, r.2)
    else readHeader (line ++ [c]) rest

section Reading

variable {line l rest : Bytes} {lines : List Bytes}

theorem headerSection_cons (line : Bytes) (lines : List Bytes) :
    headerSection (line :: lines) = line ++ crlf ++ headerSection lines := by
  rw [headerSection, List.flatMap_cons, List.append_assoc]
  rfl

theorem headerSection_free {c : UInt8} (hc : c ∉ crlf) (h : ∀ line ∈ lines, c ∉ line) :
    c ∉ headerSection lines := by
  rw [headerSection, List.mem_append, List.mem_flatMap]
  refine not_or.mpr ⟨fun ⟨line, hline, hmem⟩ => ?_, hc⟩
  exact (List.mem_append.mp hmem).elim (h line hline) hc

theorem endLine_cr (line : Bytes) : endLine (line ++ [cr]) = line := by
  rw [endLine, if_pos List.getLast?_concat, List.dropLast_concat]

/-- Bytes without a LF belong to the line. -/
theorem readHeader_append (h : lf ∉ l) :
    readHeader line (l ++ rest) = readHeader (line ++ l) rest := by
  induction l generalizing line with
  | nil => rw [List.nil_append, List.append_nil]
  | cons c l ih =>
    obtain ⟨hc, hl⟩ := List.ne_and_not_mem_of_not_mem_cons h
    rw [List.cons_append, readHeader, if_neg hc.symm, ih hl, List.append_assoc,
      List.singleton_append]

/-- A line that is ended is read whole. -/
theorem readHeader_line (h : lf ∉ l) : readHeader [] (l ++ crlf ++ rest) =
    if l = [] then some ([], rest) else (readHeader [] rest).map fun r => (l :: r.1, r.2) := by
  have hcr : lf ∉ l ++ [cr] := by
    rw [List.mem_append, List.mem_singleton]
    exact not_or.mpr ⟨h, by decide⟩
  have hsplit : l ++ crlf ++ rest = l ++ [cr] ++ lf :: rest := by simp [crlf]
  rw [hsplit, readHeader_append hcr, List.nil_append, readHeader, if_pos rfl, endLine_cr]

/-- **The lines that are read** are those that were written, and what follows is what stands behind
the empty line. -/
theorem readHeader_section (h : ∀ line ∈ lines, Plain line) (body : Bytes) :
    readHeader [] (headerSection lines ++ body) = some (lines, body) := by
  induction lines with
  | nil => exact readHeader_line List.not_mem_nil
  | cons line lines ih =>
    obtain ⟨hline, hlines⟩ := List.forall_mem_cons.mp h
    rw [headerSection_cons, List.append_assoc, readHeader_line hline.no_lf, if_neg hline.ne_nil,
      ih hlines]
    rfl

end Reading

end InpLabs.Lib
