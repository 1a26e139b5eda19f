/-
Elastic tab columns: lines whose cells are ended by a tab, aligned so that the cells of a column
start at the same place.

A line is a list of texts: every text but the last is a cell ended by a tab, the last is the rest
of the line. A column block is a maximal run of consecutive lines that all have a cell in that
column; its width is the widest cell of the block plus the padding, and at least the minimal
width. Inside a block, the next column forms its own blocks. Each cell is written padded with
spaces to the width of its column; the rest of a line is written as it is.

* `Columns.align` — the aligned text, one line ended by a newline for each input line.
-/

namespace DecisionDiagrams.Columns

/-- The number of cells ended by a tab in a line. -/
def cellCount (line : List String) : Nat :=
  line.length - 1

/-- A line written with the given column widths: a cell with a width is padded to it. -/
def renderLine (widths : List Nat) (line : List String) : String :=
  let rec loop : List Nat → List String → String
    | w :: ws, c :: cs =>
      if cs.isEmpty then c
      else c ++ String.ofList (List.replicate (w - c.length) ' ') ++ loop ws cs
    | [], cs => String.join cs
    | _ :: _, [] => ""
  loop widths line ++ "\n"

/-- Splits lines into maximal runs of lines that have a cell in column `col` or not; each run is
tagged with whether it has. -/
def runs (col : Nat) : List (List String) → List (Bool × List (List String))
  | [] => []
  | l :: ls =>
    let has := decide (col < cellCount l)
    match runs col ls with
    | (h, r) :: rest => if h = has then (has, l :: r) :: rest else (has, [l]) :: (h, r) :: rest
    | [] => [(has, [l])]

/-- The text of a run of lines whose first `widths.length` columns have the given widths;
`fuel` bounds the number of further columns. -/
def layout (minWidth padding : Nat) : Nat → List Nat → List (List String) → String
  | 0, widths, lines => String.join (lines.map (renderLine widths))
  | fuel + 1, widths, lines =>
    let col := widths.length
    String.join ((runs col lines).map fun (has, block) =>
      if has then
        let w := block.foldl (fun m l => max m ((l.getD col "").length + padding)) minWidth
        layout minWidth padding fuel (widths ++ [w]) block
      else String.join (block.map (renderLine widths)))

/-- The aligned text of the lines. -/
def align (minWidth padding : Nat) (lines : List (List String)) : String :=
  let fuel := lines.foldl (fun m l => max m (cellCount l)) 0
  layout minWidth padding fuel [] lines

end DecisionDiagrams.Columns
