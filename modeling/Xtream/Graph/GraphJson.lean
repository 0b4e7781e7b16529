import Xtream.Graph.DataflowGraph
import Xtream.Lib.JsonEscapes
import Xtream.Lib.JsonUnambiguous

/-!
# The JSON of the dataflow graph (`src/graph/dataflow_graph.h`)

`to_json` writes the name of an operator between two quotation marks as it is. So the text reads
back as the operators and edges of the graph if and only if no name has a character that JSON wants
escaped.
-/

namespace Xtream

namespace LogicalImpl

variable {U : Type}

def typeName : LogicalImpl U → String
  | .source _ => "Source"
  | .map _ => "Map"
  | .filter _ => "Filter"
  | .sink _ => "Sink"
  | .window _ => "Window"
  | .windowJoin => "WindowJoin"
  | .intervalJoin => "IntervalJoin"

end LogicalImpl

def EdgePartition.partitionName : EdgePartition → String
  | .forward => "forward"
  | .keyed => "keyed"
  | .broadcast => "broadcast"

/-- The rows from the index `i` on, of `size` rows, with a comma behind each but the last one. -/
def commaLines (size i : Nat) : List String → String
  | [] => ""
  | row :: rows =>
    row ++ (if i + 1 < size then "," else "") ++ "\n" ++ commaLines size (i + 1) rows

namespace DataflowGraph

variable {U : Type}

def operatorLine (op : LogicalOperator U) : String :=
  "    \x7b\"id\": " ++ toString op.id.raw ++ ", \"name\": \"" ++ op.name ++ "\"" ++
    ", \"type\": \"" ++ op.impl.typeName ++ "\"" ++
    ", \"parallelism\": " ++ toString op.parallelism ++ "\x7d"

def edgeLine (e : StreamEdge) : String :=
  "    \x7b\"id\": " ++ toString e.id.raw ++ ", \"source\": " ++ toString e.source.raw ++
    ", \"target\": " ++ toString e.target.raw ++ ", \"partition\": \"" ++
    e.partition.partitionName ++ "\"\x7d"

/-- `to_json()`. -/
def toJson (g : DataflowGraph U) : String :=
  "\x7b\n" ++ "  \"operators\": [\n" ++
    commaLines g.operators.length 0 (g.operators.map operatorLine) ++
    "  ],\n" ++ "  \"edges\": [\n" ++
    commaLines g.edges.length 0 (g.edges.map edgeLine) ++
    "  ]\n" ++ "\x7d\n"

end DataflowGraph

/-! ## What the text is to say -/

/-- What is told of an operator. -/
structure OperatorRow where
  id : OperatorId
  name : String
  type : String
  parallelism : UInt64
  deriving DecidableEq

/-- What is told of a graph. -/
structure GraphRows where
  operators : List OperatorRow
  edges : List StreamEdge

open Json

def OperatorRow.value (row : OperatorRow) : Value :=
  .obj [("id", .nat row.id.raw.toNat), ("name", .str row.name), ("type", .str row.type),
    ("parallelism", .nat row.parallelism.toNat)]

def StreamEdge.value (e : StreamEdge) : Value :=
  .obj [("id", .nat e.id.raw.toNat), ("source", .nat e.source.raw.toNat),
    ("target", .nat e.target.raw.toNat), ("partition", .str e.partition.partitionName)]

def GraphRows.value (rows : GraphRows) : Value :=
  .obj [("operators", .array (rows.operators.map OperatorRow.value)),
    ("edges", .array (rows.edges.map StreamEdge.value))]

namespace DataflowGraph

variable {U : Type}

def operatorRow (op : LogicalOperator U) : OperatorRow :=
  ⟨op.id, op.name, op.impl.typeName, op.parallelism⟩

def rows (g : DataflowGraph U) : GraphRows := ⟨g.operators.map operatorRow, g.edges⟩

/-- The text reads back: it is a well-formed document and denotes the rows of the graph, and no
others. -/
def ReadsBack (g : DataflowGraph U) : Prop :=
  ∀ rows : GraphRows, Document g.toJson.toList rows.value ↔ rows = g.rows

/-- No name has a character that must be escaped. -/
def NamesUnescaped (g : DataflowGraph U) : Prop :=
  ∀ op ∈ g.operators, ∀ c ∈ op.name.toList, Unescaped c

end DataflowGraph

/-! ## The rows of a value -/

theorem OperatorRow.value_injective : Function.Injective OperatorRow.value := by
  rintro ⟨⟨id⟩, name, type, parallelism⟩ ⟨⟨id'⟩, name', type', parallelism'⟩ h
  obtain ⟨hid, h⟩ := Value.obj_cons_injective h
  obtain ⟨hname, h⟩ := Value.obj_cons_injective h
  obtain ⟨htype, h⟩ := Value.obj_cons_injective h
  obtain ⟨hparallelism, h⟩ := Value.obj_cons_injective h
  obtain rfl : id = id' := UInt64.toNat_inj.mp (Value.nat_injective hid)
  obtain rfl : name = name' := Value.str_injective hname
  obtain rfl : type = type' := Value.str_injective htype
  obtain rfl : parallelism = parallelism' := UInt64.toNat_inj.mp (Value.nat_injective hparallelism)
  rfl

theorem EdgePartition.partitionName_injective : Function.Injective partitionName := by
  intro p p' h
  cases p <;> cases p' <;> first | rfl | exact absurd h (by decide)

theorem StreamEdge.value_injective : Function.Injective StreamEdge.value := by
  rintro ⟨⟨id⟩, ⟨source⟩, ⟨target⟩, partition⟩ ⟨⟨id'⟩, ⟨source'⟩, ⟨target'⟩, partition'⟩ h
  obtain ⟨hid, h⟩ := Value.obj_cons_injective h
  obtain ⟨hsource, h⟩ := Value.obj_cons_injective h
  obtain ⟨htarget, h⟩ := Value.obj_cons_injective h
  obtain ⟨hpartition, h⟩ := Value.obj_cons_injective h
  obtain rfl : id = id' := UInt64.toNat_inj.mp (Value.nat_injective hid)
  obtain rfl : source = source' := UInt64.toNat_inj.mp (Value.nat_injective hsource)
  obtain rfl : target = target' := UInt64.toNat_inj.mp (Value.nat_injective htarget)
  obtain rfl : partition = partition' :=
    EdgePartition.partitionName_injective (Value.str_injective hpartition)
  rfl

theorem GraphRows.value_injective : Function.Injective GraphRows.value := by
  rintro ⟨operators, edges⟩ ⟨operators', edges'⟩ h
  obtain ⟨hoperators, h⟩ := Value.obj_cons_injective h
  obtain ⟨hedges, h⟩ := Value.obj_cons_injective h
  obtain rfl : operators = operators' :=
    OperatorRow.value_injective.list_map (Value.array.inj hoperators)
  obtain rfl : edges = edges' := StreamEdge.value_injective.list_map (Value.array.inj hedges)
  rfl

/-! ## The parts of the text -/

@[simp]
theorem toList_toString (n : UInt64) : (toString n).toList = Nat.toDigits 10 n.toNat :=
  Nat.toList_repr

/-- The rows with their commas: the commas stand between the rows. -/
theorem toList_commaLines {α : Type} {row : α → String} {item : α → List Char} {n : Nat}
    (hrow : ∀ a, (row a).toList = List.replicate n ' ' ++ item a) (a : α) (as : List α) (i : Nat) :
    '\n' :: (commaLines (i + (as.length + 1)) i ((a :: as).map row)).toList =
      newLine n ++ (separated (newLine n) ((a :: as).map item) ++ ['\n']) := by
  induction as generalizing a i with
  | nil => simp [commaLines, separated, newLine, hrow]
  | cons b as ih =>
    have hnext := ih b (i + 1)
    have hsize : i + ((b :: as).length + 1) = i + 1 + (as.length + 1) := by
      rw [List.length_cons]
      omega
    have hcomma : i + 1 < i + 1 + (as.length + 1) := by omega
    rw [hsize, List.map_cons, commaLines, if_pos hcomma]
    simp only [String.toList_append, List.map_cons, separated, newLine, hrow] at hnext ⊢
    simp [hnext]

/-- The lines of an array, with their brackets. -/
theorem toList_linesText {α : Type} {row : α → String} {item : α → List Char × Value} {n : Nat}
    (hrow : ∀ a, (row a).toList = List.replicate (n + 2) ' ' ++ (item a).1) (as : List α) :
    '[' :: '\n' :: ((commaLines as.length 0 (as.map row)).toList ++
      (List.replicate n ' ' ++ [']'])) = linesText n (as.map item) := by
  cases as with
  | nil => rfl
  | cons a as =>
    have hlines := toList_commaLines hrow a as 0
    rw [Nat.zero_add] at hlines
    rw [← List.cons_append, List.length_cons, hlines]
    simp [linesText, spaced, newLine, Function.comp_def]

namespace OperatorRow

def members (row : OperatorRow) : List Member :=
  [.nat "id" row.id.raw.toNat, .str "name" row.name, .str "type" row.type,
    .nat "parallelism" row.parallelism.toNat]

def item (row : OperatorRow) : List Char × Value := (lineText row.members, row.value)

end OperatorRow

namespace StreamEdge

def members (e : StreamEdge) : List Member :=
  [.nat "id" e.id.raw.toNat, .nat "source" e.source.raw.toNat, .nat "target" e.target.raw.toNat,
    .str "partition" e.partition.partitionName]

def item (e : StreamEdge) : List Char × Value := (lineText e.members, e.value)

end StreamEdge

def GraphRows.members (rows : GraphRows) : List Member :=
  [⟨"operators", linesText 2 (rows.operators.map OperatorRow.item),
      .array (rows.operators.map OperatorRow.value)⟩,
    ⟨"edges", linesText 2 (rows.edges.map StreamEdge.item),
      .array (rows.edges.map StreamEdge.value)⟩]

namespace DataflowGraph

variable {U : Type}

theorem toList_operatorLine (op : LogicalOperator U) :
    (operatorLine op).toList = List.replicate 4 ' ' ++ (operatorRow op).item.1 := by
  unfold operatorLine
  simp only [operatorRow, OperatorRow.item, OperatorRow.members, lineText, spaced,
    separated, Member.print, Member.nat, Member.str, List.map_cons, List.map_nil,
    String.toList_append, toList_toString, String.reduceToList, List.reduceReplicate,
    List.cons_append, List.nil_append, List.append_assoc]

theorem toList_edgeLine (e : StreamEdge) :
    (edgeLine e).toList = List.replicate 4 ' ' ++ e.item.1 := by
  unfold edgeLine
  simp only [StreamEdge.item, StreamEdge.members, lineText, spaced, separated,
    Member.print, Member.nat, Member.str, List.map_cons, List.map_nil, String.toList_append,
    toList_toString, String.reduceToList, List.reduceReplicate, List.cons_append, List.nil_append,
    List.append_assoc]

/-- The text is the one of an object. -/
theorem toList_toJson (g : DataflowGraph U) :
    g.toJson.toList = blockText 0 g.rows.members ++ ['\n'] := by
  have hoperators := @toList_linesText (LogicalOperator U) operatorLine
    (fun op => (operatorRow op).item) 2 toList_operatorLine g.operators
  have hedges := toList_linesText toList_edgeLine g.edges
  unfold toJson
  simp only [blockText, GraphRows.members, rows, List.map_map, List.map_cons, List.map_nil,
    newLine, List.reduceReplicate, Nat.reduceAdd, spaced, separated, Member.print,
    Function.comp_def, ← hoperators, ← hedges, String.toList_append, String.reduceToList,
    List.cons_append, List.nil_append,
    List.append_assoc]

end DataflowGraph

/-! ## The text of plain names -/

theorem LogicalImpl.unescaped_typeName {U : Type} (impl : LogicalImpl U) :
    ∀ c ∈ impl.typeName.toList, Unescaped c := by
  cases impl <;> simp only [typeName] <;> exact unescaped_of_all rfl

theorem EdgePartition.unescaped_partitionName (p : EdgePartition) :
    ∀ c ∈ p.partitionName.toList, Unescaped c := by
  cases p <;> simp only [partitionName] <;> exact unescaped_of_all rfl

theorem OperatorRow.prints_item {row : OperatorRow} (hname : ∀ c ∈ row.name.toList, Unescaped c)
    (htype : ∀ c ∈ row.type.toList, Unescaped c) : Prints row.item.1 row.item.2 :=
  prints_lineText (forall_mem_four (Member.ok_nat (unescaped_of_all rfl) _)
    (Member.ok_str (unescaped_of_all rfl) hname) (Member.ok_str (unescaped_of_all rfl) htype)
    (Member.ok_nat (unescaped_of_all rfl) _))

theorem StreamEdge.prints_item (e : StreamEdge) : Prints e.item.1 e.item.2 :=
  prints_lineText (forall_mem_four (Member.ok_nat (unescaped_of_all rfl) _)
    (Member.ok_nat (unescaped_of_all rfl) _) (Member.ok_nat (unescaped_of_all rfl) _)
    (Member.ok_str (unescaped_of_all rfl) e.partition.unescaped_partitionName))

theorem GraphRows.prints {rows : GraphRows}
    (hnames : ∀ row ∈ rows.operators, ∀ c ∈ row.name.toList, Unescaped c)
    (htypes : ∀ row ∈ rows.operators, ∀ c ∈ row.type.toList, Unescaped c) :
    Prints (blockText 0 rows.members) rows.value := by
  have hoperators := @prints_linesText 2 (rows.operators.map OperatorRow.item)
    (List.forall_mem_map.mpr fun row hrow => row.prints_item (hnames row hrow) (htypes row hrow))
  have hedges := @prints_linesText 2 (rows.edges.map StreamEdge.item)
    (List.forall_mem_map.mpr fun e _ => e.prints_item)
  rw [List.map_map] at hoperators hedges
  exact prints_blockText 0 (forall_mem_two ⟨unescaped_of_all (s := "operators") rfl, hoperators⟩
    ⟨unescaped_of_all (s := "edges") rfl, hedges⟩)

/-! ## What the text costs -/

theorem OperatorRow.cost_item (row : OperatorRow) : cost row.item.1 = row.item.2.cost :=
  cost_lineText (forall_mem_four (cost_nat _) (cost_string _) (cost_string _) (cost_nat _))

theorem StreamEdge.cost_item (e : StreamEdge) : cost e.item.1 = e.item.2.cost :=
  cost_lineText (forall_mem_four (cost_nat _) (cost_nat _) (cost_nat _) (cost_string _))

/-- The text costs what its rows do, whatever the names are. -/
theorem GraphRows.cost_text (rows : GraphRows) :
    cost (blockText 0 rows.members) = rows.value.cost := by
  have hoperators := @cost_linesText 2 (rows.operators.map OperatorRow.item)
    (List.forall_mem_map.mpr fun row _ => row.cost_item)
  have hedges := @cost_linesText 2 (rows.edges.map StreamEdge.item)
    (List.forall_mem_map.mpr fun e _ => e.cost_item)
  rw [List.map_map] at hoperators hedges
  exact cost_blockText 0 (forall_mem_two hoperators hedges)

/-- A name is a string of the value. -/
theorem GraphRows.unescaped_name {rows : GraphRows} (h : rows.value.Plain) {row : OperatorRow}
    (hrow : row ∈ rows.operators) : ∀ c ∈ row.name.toList, Unescaped c := by
  have hoperators := (Value.plain_object_cons.mp h).2.1
  have hvalue := Value.plain_array.mp hoperators row.value (List.mem_map_of_mem hrow)
  obtain ⟨-, -, hmembers⟩ := Value.plain_object_cons.mp hvalue
  obtain ⟨-, hname, -⟩ := Value.plain_object_cons.mp hmembers
  exact plainUnit_units.mp (Value.plain_string.mp hname)

/-! ## Reading back -/

namespace DataflowGraph

variable {U : Type}

/-- Plain names: the text is a document that denotes the rows. -/
theorem document_of_namesUnescaped {g : DataflowGraph U} (h : g.NamesUnescaped) :
    Document g.toJson.toList g.rows.value := by
  rw [toList_toJson]
  refine (GraphRows.prints ?_ ?_).document (isSpace_newLine 0)
  · exact List.forall_mem_map.mpr h
  · exact List.forall_mem_map.mpr fun op _ => op.impl.unescaped_typeName

/-- A document that denotes the rows: every string in it is one of the rows, and no character of it
is left to write an escape. -/
theorem namesUnescaped_of_document {g : DataflowGraph U}
    (h : Document g.toJson.toList g.rows.value) : g.NamesUnescaped := by
  have hcost : cost g.toJson.toList = g.rows.value.cost := by
    rw [toList_toJson, cost_append, GraphRows.cost_text]
    rfl
  intro op hop
  exact GraphRows.unescaped_name (h.plain (Nat.le_of_eq hcost)) (List.mem_map_of_mem hop)

theorem readsBack_iff_document {g : DataflowGraph U} :
    g.ReadsBack ↔ Document g.toJson.toList g.rows.value := by
  constructor
  · intro h
    exact (h g.rows).mpr rfl
  · intro h rows
    constructor
    · intro hrows
      exact GraphRows.value_injective (hrows.unique h)
    · rintro rfl
      exact h

/-- **The JSON of a graph reads back** if and only if no name has a character that must be escaped,
and then no other such graph has this text. -/
theorem toJson_readsBack_iff (g : DataflowGraph U) :
    (g.ReadsBack ↔ g.NamesUnescaped) ∧
      ∀ g' : DataflowGraph U, g.NamesUnescaped → g'.NamesUnescaped → g.rows ≠ g'.rows →
        g.toJson ≠ g'.toJson := by
  have hiff : ∀ g : DataflowGraph U, g.ReadsBack ↔ g.NamesUnescaped := fun g =>
    readsBack_iff_document.trans ⟨namesUnescaped_of_document, document_of_namesUnescaped⟩
  refine ⟨hiff g, fun g' hg hg' hne htext => hne ?_⟩
  have hdocument := document_of_namesUnescaped hg
  rw [htext] at hdocument
  exact (((hiff g').mpr hg') g.rows).mp hdocument

/-- A sink with the name. -/
def namedSink (id : UInt64) (name : String) : LogicalOperator Unit :=
  ⟨⟨id⟩, name, 1, .sink ⟨fun u _ => u, ()⟩⟩

/-- A quotation mark in a name ends the string; what is behind it can be the line of one operator
more. -/
theorem toJson_quote :
    ¬ (DataflowGraph.mk [namedSink 1 "\""] []).ReadsBack ∧
      (DataflowGraph.mk [namedSink 1 "a", namedSink 2 "b"] []).toJson =
        (DataflowGraph.mk [namedSink 1
          "a\", \"type\": \"Sink\", \"parallelism\": 1\x7d,\n    \x7b\"id\": 2, \"name\": \"b"]
          []).toJson ∧
      (DataflowGraph.mk [namedSink 1 "a", namedSink 2 "b"] []).rows ≠
        (DataflowGraph.mk [namedSink 1
          "a\", \"type\": \"Sink\", \"parallelism\": 1\x7d,\n    \x7b\"id\": 2, \"name\": \"b"]
          []).rows := by
  refine ⟨fun h => ?_, ?_, fun h => ?_⟩
  · have hnames := namesUnescaped_of_document (readsBack_iff_document.mp h)
    have hquote := hnames _ List.mem_cons_self '"' (by decide)
    exact hquote.2.1 rfl
  · rfl
  · exact absurd (congrArg (fun rows => rows.operators.length) h) (by decide)

end DataflowGraph

end Xtream
