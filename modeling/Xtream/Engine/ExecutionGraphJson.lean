import Xtream.Engine.JoinCompilation
import Xtream.Engine.Split
import Xtream.Graph.GraphJson

/-!
# The JSON of the execution graph (`src/engine/execution_graph.h`)

* `document_toJson`: the text is a well-formed document, whatever the pipelines are;
* `channelEntries_pipelines`: the channels of the pipelines that `build` makes of a chain;
* `toJson_build`: both together, for a linear graph.
-/

namespace Xtream

variable {U : Type}

/-- `output_channel()` of a window operator. -/
def PhysicalOperator.outputChannel : PhysicalOperator U → Option ChannelId
  | countWindow op => op.outputChannel
  | timeWindow op => op.outputChannel
  | _ => none

namespace ExecutionGraph

/-- The map `channel_id`. -/
abbrev ChannelIds := List (ChannelId × Nat)

/-- `channel_id[ch] = channel_id.size()`: the size is read before the channel is in the map. -/
def assign (ids : ChannelIds) (ch : ChannelId) : ChannelIds :=
  ids.filter (fun p => p.1 ≠ ch) ++ [(ch, ids.length)]

/-- The first loop numbers the channels of the windows. -/
def channelIds (pipelines : List (Chain U)) : ChannelIds :=
  pipelines.foldl (fun ids p => p.foldl (fun ids node =>
    match node.outputChannel with
    | some ch => assign ids ch
    | none => ids) ids) []

def operatorLine (node : PhysicalOperator U × Nat) : String :=
  "        \x7b\"index\": " ++ toString node.2 ++ ", \"type\": \"" ++ node.1.typeName ++ "\"\x7d"

/-- The loop over a pipeline from the operator with the index `ni` on: a comma where there is a
`next()`. -/
def operatorLines (ni : Nat) : Chain U → String
  | [] => ""
  | node :: next =>
    operatorLine (node, ni) ++ (if next.isEmpty then "" else ",") ++ "\n" ++
      operatorLines (ni + 1) next

def pipelineLines (p : Chain U × Nat) : String :=
  "    \x7b\n" ++ "      \"index\": " ++ toString p.2 ++ ",\n" ++ "      \"operators\": [\n" ++
    operatorLines 0 p.1 ++ "      ]\n" ++ "    \x7d"

/-- A channel from a window to a channel source. -/
structure ChannelEntry where
  id : Nat
  fromPipeline : Nat
  fromOperator : Nat
  toPipeline : Nat
  toOperator : Nat
  deriving DecidableEq, Repr

/-- The operators of a pipeline that have the channel asked for: the channel, the index of the
pipeline, and their own. -/
def pipelineEnds (channel : PhysicalOperator U → Option ChannelId) (p : Chain U × Nat) :
    List (ChannelId × Nat × Nat) :=
  p.1.zipIdx.filterMap fun node => (channel node.1).map fun ch => (ch, p.2, node.2)

def channelEnds (channel : PhysicalOperator U → Option ChannelId) (pipelines : List (Chain U)) :
    List (ChannelId × Nat × Nat) :=
  pipelines.zipIdx.flatMap (pipelineEnds channel)

/-- The two inner loops: the channel sources that read the channel of the window. -/
def entriesOf (ids : ChannelIds) (sources : List (ChannelId × Nat × Nat))
    (w : ChannelId × Nat × Nat) : List ChannelEntry :=
  match ids.lookup w.1 with
  | none => []
  | some id => sources.filterMap fun cs =>
    if cs.1 = w.1 then some ⟨id, w.2.1, w.2.2, cs.2.1, cs.2.2⟩ else none

/-- The channels in the order of the four loops. -/
def channelEntries (pipelines : List (Chain U)) : List ChannelEntry :=
  (channelEnds PhysicalOperator.outputChannel pipelines).flatMap
    (entriesOf (channelIds pipelines) (channelEnds PhysicalOperator.inputChannel pipelines))

def channelText (e : ChannelEntry) : String :=
  "\x7b\"id\": " ++ toString e.id ++ ", \"from\": \x7b\"pipeline\": " ++ toString e.fromPipeline ++
    ", \"operator\": " ++ toString e.fromOperator ++ "\x7d, \"to\": \x7b\"pipeline\": " ++
    toString e.toPipeline ++ ", \"operator\": " ++ toString e.toOperator ++ "\x7d\x7d"

/-- A comma before each channel but the first one. -/
def channelLines (first : Bool) : List ChannelEntry → String
  | [] => ""
  | e :: es => (if first then "\n    " else ",\n    ") ++ channelText e ++ channelLines false es

/-- `to_json(pipelines)`. -/
def toJson (pipelines : List (Chain U)) : String :=
  "\x7b\n  \"pipelines\": [\n" ++
    commaLines pipelines.length 0 (pipelines.zipIdx.map pipelineLines) ++
    "  ],\n" ++ "  \"channels\": [" ++ channelLines true (channelEntries pipelines) ++
    "\n  ]\n\x7d\n"

/-! ## What the text is to say -/

open Json

def operatorValue (node : PhysicalOperator U × Nat) : Value :=
  .obj [("index", .nat node.2), ("type", .str node.1.typeName)]

def pipelineValue (p : Chain U × Nat) : Value :=
  .obj [("index", .nat p.2), ("operators", .array (p.1.zipIdx.map operatorValue))]

/-- An operator in a pipeline. -/
def endValue (pipeline operator : Nat) : Value :=
  .obj [("pipeline", .nat pipeline), ("operator", .nat operator)]

def ChannelEntry.value (e : ChannelEntry) : Value :=
  .obj [("id", .nat e.id), ("from", endValue e.fromPipeline e.fromOperator),
    ("to", endValue e.toPipeline e.toOperator)]

def value (pipelines : List (Chain U)) (channels : List ChannelEntry) : Value :=
  .obj [("pipelines", .array (pipelines.zipIdx.map pipelineValue)),
    ("channels", .array (channels.map ChannelEntry.value))]

/-! ## The text is a document -/

@[simp]
theorem toList_toString_nat (n : Nat) : (toString n).toList = Nat.toDigits 10 n := Nat.toList_repr

/-- The two rules put the same commas. -/
theorem operatorLines_eq (ni : Nat) (p : Chain U) : operatorLines ni p =
    commaLines (ni + p.length) ni ((p.zipIdx ni).map operatorLine) := by
  induction p generalizing ni with
  | nil => rfl
  | cons node next ih =>
    have hsize : ni + (node :: next).length = ni + 1 + next.length := by
      rw [List.length_cons]
      omega
    have hcomma : ni + 1 < ni + 1 + next.length ↔ next.isEmpty = false := by
      cases next <;> simp
    rw [operatorLines, ih, hsize, List.zipIdx_cons, List.map_cons, commaLines]
    cases h : next.isEmpty <;> simp [hcomma, h]

def operatorItem (node : PhysicalOperator U × Nat) : List Char × Value :=
  (lineText [.nat "index" node.2, .str "type" node.1.typeName], operatorValue node)

theorem toList_operatorLine (node : PhysicalOperator U × Nat) :
    (operatorLine node).toList = List.replicate 8 ' ' ++ (operatorItem node).1 := by
  unfold operatorLine
  simp only [operatorItem, lineText, spaced, separated, Member.print, Member.nat, Member.str,
    List.map_cons, List.map_nil, String.toList_append, toList_toString_nat, String.reduceToList,
    List.reduceReplicate, List.cons_append, List.nil_append, List.append_assoc]

def pipelineMembers (p : Chain U × Nat) : List Member :=
  [.nat "index" p.2,
    ⟨"operators", linesText 6 (p.1.zipIdx.map operatorItem), .array (p.1.zipIdx.map operatorValue)⟩]

def pipelineItem (p : Chain U × Nat) : List Char × Value :=
  (blockText 4 (pipelineMembers p), pipelineValue p)

theorem toList_pipelineLines (p : Chain U × Nat) :
    (pipelineLines p).toList = List.replicate 4 ' ' ++ (pipelineItem p).1 := by
  have hlines := toList_linesText (n := 6) toList_operatorLine p.1.zipIdx
  rw [List.length_zipIdx, ← Nat.zero_add p.1.length, ← operatorLines_eq] at hlines
  unfold pipelineLines
  simp only [pipelineItem, pipelineMembers, blockText, newLine, spaced, separated, Member.print,
    Member.nat, ← hlines, List.map_cons, List.map_nil, String.toList_append, toList_toString_nat,
    String.reduceToList, List.reduceReplicate, Nat.reduceAdd, List.cons_append, List.nil_append,
    List.append_assoc]

def endText (pipeline operator : Nat) : List Char :=
  lineText [.nat "pipeline" pipeline, .nat "operator" operator]

def channelMembers (e : ChannelEntry) : List Member :=
  [.nat "id" e.id, ⟨"from", endText e.fromPipeline e.fromOperator,
      endValue e.fromPipeline e.fromOperator⟩,
    ⟨"to", endText e.toPipeline e.toOperator, endValue e.toPipeline e.toOperator⟩]

def channelItem (e : ChannelEntry) : List Char × Value := (lineText (channelMembers e), e.value)

theorem toList_channelText (e : ChannelEntry) : (channelText e).toList = (channelItem e).1 := by
  unfold channelText
  simp only [channelItem, channelMembers, endText, lineText, spaced, separated, Member.print,
    Member.nat, List.map_cons, List.map_nil, String.toList_append, toList_toString_nat,
    String.reduceToList, List.cons_append, List.nil_append, List.append_assoc]

theorem toList_channelLines_false (es : List ChannelEntry) : (channelLines false es).toList =
    es.flatMap fun e => ',' :: (newLine 4 ++ (channelItem e).1) := by
  induction es with
  | nil => rfl
  | cons e es ih => simp [channelLines, newLine, toList_channelText, ih]

theorem toList_channelLines (es : List ChannelEntry) :
    '[' :: ((channelLines true es).toList ++ (newLine 2 ++ [']'])) =
      linesText 2 (es.map channelItem) := by
  cases es with
  | nil => rfl
  | cons e es =>
    rw [channelLines, linesText, List.map_map, List.map_cons, spaced, separated_cons]
    simp [newLine, toList_channelText, toList_channelLines_false, List.flatMap_map]

def members (pipelines : List (Chain U)) (channels : List ChannelEntry) : List Member :=
  [⟨"pipelines", linesText 2 (pipelines.zipIdx.map pipelineItem),
      .array (pipelines.zipIdx.map pipelineValue)⟩,
    ⟨"channels", linesText 2 (channels.map channelItem),
      .array (channels.map ChannelEntry.value)⟩]

theorem toList_toJson (pipelines : List (Chain U)) : (toJson pipelines).toList =
    blockText 0 (members pipelines (channelEntries pipelines)) ++ ['\n'] := by
  have hpipelines := toList_linesText (n := 2) toList_pipelineLines pipelines.zipIdx
  have hchannels := toList_channelLines (channelEntries pipelines)
  rw [List.length_zipIdx] at hpipelines
  unfold toJson
  simp only [members, blockText, newLine, spaced, separated, Member.print, ← hpipelines,
    ← hchannels, List.map_cons, List.map_nil, String.toList_append, String.reduceToList,
    List.reduceReplicate, Nat.reduceAdd, List.cons_append, List.nil_append, List.append_assoc]

theorem unescaped_typeName (op : PhysicalOperator U) :
    ∀ c ∈ op.typeName.toList, Unescaped c := by
  cases op <;> simp only [PhysicalOperator.typeName] <;> exact unescaped_of_all rfl

theorem prints_operatorItem (node : PhysicalOperator U × Nat) :
    Prints (operatorItem node).1 (operatorItem node).2 :=
  prints_lineText (forall_mem_two (Member.ok_nat (unescaped_of_all rfl) _)
    (Member.ok_str (unescaped_of_all rfl) (unescaped_typeName node.1)))

theorem prints_pipelineItem (p : Chain U × Nat) :
    Prints (pipelineItem p).1 (pipelineItem p).2 := by
  have hoperators := @prints_linesText 6 (p.1.zipIdx.map operatorItem)
    (List.forall_mem_map.mpr fun node _ => prints_operatorItem node)
  rw [List.map_map] at hoperators
  exact prints_blockText 4 (forall_mem_two (Member.ok_nat (unescaped_of_all rfl) _)
    ⟨unescaped_of_all (s := "operators") rfl, hoperators⟩)

theorem prints_endText (pipeline operator : Nat) :
    Prints (endText pipeline operator) (endValue pipeline operator) :=
  prints_lineText (forall_mem_two (Member.ok_nat (unescaped_of_all rfl) _)
    (Member.ok_nat (unescaped_of_all rfl) _))

theorem prints_channelItem (e : ChannelEntry) :
    Prints (channelItem e).1 (channelItem e).2 :=
  prints_lineText (List.forall_mem_cons.mpr ⟨Member.ok_nat (unescaped_of_all rfl) _,
    forall_mem_two ⟨unescaped_of_all (s := "from") rfl, prints_endText _ _⟩
      ⟨unescaped_of_all (s := "to") rfl, prints_endText _ _⟩⟩)

/-- The text is a well-formed document, whatever the pipelines are. -/
theorem document_toJson (pipelines : List (Chain U)) :
    Document (toJson pipelines).toList (value pipelines (channelEntries pipelines)) := by
  have hpipelines := @prints_linesText 2 (pipelines.zipIdx.map pipelineItem)
    (List.forall_mem_map.mpr fun p _ => prints_pipelineItem p)
  have hchannels := @prints_linesText 2 ((channelEntries pipelines).map channelItem)
    (List.forall_mem_map.mpr fun e _ => prints_channelItem e)
  rw [List.map_map] at hpipelines hchannels
  rw [toList_toJson]
  exact (prints_blockText 0 (forall_mem_two
    ⟨unescaped_of_all (s := "pipelines") rfl, hpipelines⟩
    ⟨unescaped_of_all (s := "channels") rfl, hchannels⟩)).document (isSpace_newLine 0)

/-! ## The channels of a chain -/

theorem pipelineEnds_eq_nil {channel : PhysicalOperator U → Option ChannelId} {p : Chain U}
    (h : ∀ op ∈ p, channel op = none) (k : Nat) : pipelineEnds channel (p, k) = [] := by
  refine List.filterMap_eq_nil_iff.mpr fun node hnode => ?_
  rw [h node.1 (List.fst_mem_of_mem_zipIdx hnode), Option.map_none]

theorem pipelineEnds_concat (channel : PhysicalOperator U → Option ChannelId) (p : Chain U)
    (op : PhysicalOperator U) (k : Nat) : pipelineEnds channel (p ++ [op], k) =
      pipelineEnds channel (p, k) ++ ((channel op).map fun ch => (ch, k, p.length)).toList := by
  unfold pipelineEnds
  rw [List.zipIdx_append, List.filterMap_append]
  cases h : channel op <;> simp [h]

theorem outputChannel_of_not_window {op : PhysicalOperator U} (h : op.isWindow = false) :
    op.outputChannel = none := by
  cases op with
  | countWindow op => cases h
  | timeWindow op => cases h
  | _ => rfl

theorem outputChannel_setOutputChannel {op : PhysicalOperator U} (h : op.isWindow = true)
    (ch : ChannelId) : (op.setOutputChannel ch).outputChannel = some ch := by
  cases op with
  | countWindow op => rfl
  | timeWindow op => rfl
  | _ => cases h

theorem inputChannel_setOutputChannel (op : PhysicalOperator U) (ch : ChannelId) :
    (op.setOutputChannel ch).inputChannel = op.inputChannel := by
  cases op <;> rfl

/-- The windows with a channel: the last operator of each pipeline but the last one. -/
theorem outputEnds_pipelines (n k : Nat) {acc : Chain U} (hacc : ∀ op ∈ acc, op.isWindow = false)
    (ops : Chain U) :
    ((pipelines n acc ops).zipIdx k).flatMap (pipelineEnds PhysicalOperator.outputChannel) =
      (List.range (ops.countP PhysicalOperator.isWindow)).map fun i =>
        (n + i, k + i, ((pipelines n acc ops).getD i []).length - 1) := by
  induction ops generalizing n k acc with
  | nil =>
    have hnone := pipelineEnds_eq_nil (fun op hop => outputChannel_of_not_window (hacc op hop)) k
    simpa [pipelines] using hnone
  | cons op rest ih =>
    rw [pipelines]
    split
    · rename_i hop
      have hnone := pipelineEnds_eq_nil (fun op hop => outputChannel_of_not_window (hacc op hop)) k
      have hwindow : pipelineEnds PhysicalOperator.outputChannel
          (acc ++ [op.setOutputChannel n], k) = [(n, k, acc.length)] := by
        rw [pipelineEnds_concat, hnone, outputChannel_setOutputChannel hop]
        rfl
      rw [List.zipIdx_cons, List.flatMap_cons, hwindow, ih (n + 1) (k + 1)
        (List.forall_mem_singleton.mpr rfl), List.countP_cons_of_pos hop, List.range_succ_eq_map]
      simp [Nat.add_comm, Nat.add_left_comm]
    · rename_i hop
      have hop' : op.isWindow = false := by simpa using hop
      rw [List.countP_cons_of_neg hop]
      exact ih n k (List.forall_mem_append.mpr ⟨hacc, List.forall_mem_singleton.mpr hop'⟩)

/-- The channel sources: the roots of the pipelines but the first one. -/
theorem inputEnds_pipelines (n k : Nat) (acc : Chain U) {ops : Chain U}
    (hops : ∀ op ∈ ops, op.inputChannel = none) :
    ((pipelines n acc ops).zipIdx k).flatMap (pipelineEnds PhysicalOperator.inputChannel) =
      pipelineEnds PhysicalOperator.inputChannel (acc, k) ++
        (List.range (ops.countP PhysicalOperator.isWindow)).map fun i =>
          (n + i, k + i + 1, 0) := by
  induction ops generalizing n k acc with
  | nil => simp [pipelines]
  | cons op rest ih =>
    obtain ⟨hop, hrest⟩ := List.forall_mem_cons.mp hops
    rw [pipelines]
    split
    · rename_i hwindow
      have hroot : pipelineEnds PhysicalOperator.inputChannel
          ([PhysicalOperator.channelSource (U := U) ⟨n, false⟩], k + 1) = [(n, k + 1, 0)] := rfl
      rw [List.zipIdx_cons, List.flatMap_cons, ih (n + 1) (k + 1) _ hrest, hroot,
        pipelineEnds_concat, inputChannel_setOutputChannel, hop, List.countP_cons_of_pos hwindow,
        List.range_succ_eq_map]
      simp [Nat.add_comm, Nat.add_left_comm]
    · rename_i hwindow
      rw [ih n k _ hrest, pipelineEnds_concat, hop, List.countP_cons_of_neg hwindow]
      simp

/-! ### The numbers of the channels -/

theorem channelIds_eq (pipelines : List (Chain U)) : channelIds pipelines =
    (pipelines.flatten.filterMap PhysicalOperator.outputChannel).foldl assign [] := by
  unfold channelIds
  rw [List.foldl_filterMap, List.foldl_flatten]
  refine congrArg (fun f => pipelines.foldl f []) ?_
  funext ids p
  refine congrArg (fun f => p.foldl f ids) ?_
  funext ids node
  cases node.outputChannel <;> rfl

/-- The channels `0, .., w - 1` get these numbers. -/
theorem foldl_assign (w : Nat) :
    (List.range w).foldl assign [] = (List.range w).map fun i => (i, i) := by
  induction w with
  | zero => rfl
  | succ w ih =>
    rw [List.range_succ, List.foldl_append, ih, List.map_append]
    have hkeep : ((List.range w).map fun i => (i, i)).filter (fun p => p.1 ≠ w) =
        (List.range w).map fun i => (i, i) := by
      refine List.filter_eq_self.mpr (List.forall_mem_map.mpr fun i hi => ?_)
      simpa using Nat.ne_of_lt (List.mem_range.mp hi)
    rw [List.foldl_cons, List.foldl_nil, assign, hkeep, List.length_map, List.length_range]
    rfl

theorem lookup_range {w i : Nat} (hi : i < w) :
    ((List.range w).map fun i => (i, i)).lookup i = some i := by
  have hmem : (i, i) ∈ (List.range w).map fun i => (i, i) :=
    List.mem_map_of_mem (f := fun i => (i, i)) (List.mem_range.mpr hi)
  cases h : ((List.range w).map fun i => (i, i)).lookup i with
  | none => simpa using List.lookup_eq_none_iff.mp h _ hmem
  | some b =>
    obtain ⟨before, after, hsplit, -⟩ := List.lookup_eq_some_iff.mp h
    have hpair : (i, b) ∈ (List.range w).map fun i => (i, i) := by rw [hsplit]; simp
    obtain ⟨j, -, hj⟩ := List.mem_map.mp hpair
    cases hj
    rfl

/-- One of the numbers is picked. -/
theorem filterMap_range {β : Type} (f : Nat → β) {w i : Nat} (hi : i < w) :
    (List.range w).filterMap (fun j => if j = i then some (f j) else none) = [f i] := by
  induction w with
  | zero => cases hi
  | succ w ih =>
    rw [List.range_succ, List.filterMap_append]
    rcases Nat.lt_succ_iff_lt_or_eq.mp hi with hlt | rfl
    · rw [ih hlt]
      simp [Nat.ne_of_gt hlt]
    · have hnone : (List.range i).filterMap (fun j => if j = i then some (f j) else none) = [] :=
        List.filterMap_eq_nil_iff.mpr fun j hj => if_neg (Nat.ne_of_lt (List.mem_range.mp hj))
      rw [hnone]
      simp

theorem channelIds_pipelines (ops : Chain U) : channelIds (pipelines 0 [] ops) =
    (List.range (ops.countP PhysicalOperator.isWindow)).map fun i => (i, i) := by
  have hchannels := pipelines_channels 0 (List.forall_mem_nil _) ops
  have hshape : Chain.outputChannels (pipelines 0 [] ops).flatten =
      (pipelines 0 [] ops).flatten.filterMap PhysicalOperator.outputChannel := by
    unfold Chain.outputChannels Chain.shapes
    rw [List.filterMap_map]
    refine congrArg (fun f => List.filterMap f _) ?_
    funext op
    cases op <;> rfl
  rw [channelIds_eq, ← hshape, hchannels, ← List.range_eq_range', foldl_assign]

/-- A window finds the number of its channel and its one channel source. -/
theorem entriesOf_range {w i : Nat} (hi : i < w) (last : Nat) :
    entriesOf ((List.range w).map fun i => (i, i)) ((List.range w).map fun i => (i, i + 1, 0))
      (i, i, last) = [⟨i, i, last, i + 1, 0⟩] := by
  rw [entriesOf, lookup_range hi]
  show ((List.range w).map fun i => (i, i + 1, 0)).filterMap _ = _
  rw [List.filterMap_map]
  exact filterMap_range (fun j => ChannelEntry.mk i i last (j + 1) 0) hi

/-- The channels of the pipelines of a chain. -/
theorem channelEntries_pipelines {ops : Chain U} (hops : ∀ op ∈ ops, op.inputChannel = none) :
    channelEntries (pipelines 0 [] ops) =
      (List.range (ops.countP PhysicalOperator.isWindow)).map fun i =>
        ⟨i, i, ((pipelines 0 [] ops).getD i []).length - 1, i + 1, 0⟩ := by
  have houtputs := outputEnds_pipelines 0 0 (List.forall_mem_nil _) ops
  have hinputs := inputEnds_pipelines 0 0 [] hops
  rw [pipelineEnds_eq_nil (List.forall_mem_nil _), List.nil_append] at hinputs
  simp only [Nat.zero_add] at houtputs hinputs
  unfold channelEntries channelEnds
  rw [houtputs, hinputs, channelIds_pipelines, List.flatMap_map]
  have hone := fun i (hi : i ∈ List.range (ops.countP PhysicalOperator.isWindow)) =>
    entriesOf_range (List.mem_range.mp hi) (((pipelines 0 [] ops).getD i []).length - 1)
  exact (List.flatMap_congr hone).trans List.map_eq_flatMap.symm

/-! ## The pipelines of a linear graph -/

theorem mem_pipelines_ne_nil (n : Nat) {acc ops : Chain U} (hne : acc ++ ops ≠ []) :
    ∀ p ∈ pipelines n acc ops, p ≠ [] := by
  induction ops generalizing n acc with
  | nil => simpa [pipelines] using hne
  | cons op rest ih =>
    rw [pipelines]
    split
    · exact List.forall_mem_cons.mpr ⟨by simp, ih (n + 1) (List.cons_ne_nil _ _)⟩
    · exact ih n (by simp)

theorem typeName_withChannels (n : Nat) (ops : Chain U) :
    (withChannels n ops).map PhysicalOperator.typeName = ops.map PhysicalOperator.typeName := by
  have htype : ∀ (op : PhysicalOperator U) ch, (op.setOutputChannel ch).typeName = op.typeName := by
    intro op ch
    cases op <;> rfl
  induction ops generalizing n with
  | nil => rfl
  | cons op rest ih =>
    rw [withChannels]
    split <;> simp [htype, ih]

theorem dropChannelSource_singleton {op : PhysicalOperator U} (h : op.inputChannel = none) :
    dropChannelSource [op] = [op] := by
  cases op with
  | channelSource op => cases h
  | _ => rfl

/-- Without the channel sources the pipelines have the operators of the chain. -/
theorem typeName_pipelines {root : PhysicalOperator U} {rest : Chain U}
    (hroot : root.inputChannel = none) :
    ((pipelines 0 [] (root :: rest)).flatMap dropChannelSource).map PhysicalOperator.typeName =
      (root :: rest).map PhysicalOperator.typeName := by
  rw [← typeName_withChannels 0 (root :: rest), pipelines, withChannels]
  split
  · rw [List.flatMap_cons, pipelines_chain 1 (List.cons_ne_nil _ _), List.nil_append,
      dropChannelSource_singleton (inputChannel_setOutputChannel root 0 ▸ hroot)]
    rfl
  · rw [pipelines_chain 0 (by simp), List.nil_append, dropChannelSource_singleton hroot]
    rfl

end ExecutionGraph

def LogicalImpl.isWindow : LogicalImpl U → Bool
  | .window _ => true
  | _ => false

theorem LogicalImpl.compile_spec {impl : LogicalImpl U} {op : PhysicalOperator U}
    (h : impl.compile = some op) : op.inputChannel = none ∧ op.isWindow = impl.isWindow := by
  cases impl with
  | window w =>
    cases h
    unfold WindowLogicalOperator.compile
    split <;> exact ⟨rfl, rfl⟩
  | windowJoin => cases h
  | intervalJoin => cases h
  | _ =>
    cases h
    exact ⟨rfl, rfl⟩

/-- Without joins every operator compiles, a window to a window. -/
theorem exists_chain {path : List (LogicalOperator U)}
    (hjoin : ∀ op ∈ path, op.impl.isJoin = false) : ∃ ops : Chain U,
      path.map (·.compile) = ops.map some ∧ (∀ op ∈ ops, op.inputChannel = none) ∧
      ops.countP PhysicalOperator.isWindow = path.countP fun op => op.impl.isWindow := by
  induction path with
  | nil => exact ⟨[], rfl, List.forall_mem_nil _, rfl⟩
  | cons op path ih =>
    obtain ⟨hop, hpath⟩ := List.forall_mem_cons.mp hjoin
    obtain ⟨ops, hops, hinput, hcount⟩ := ih hpath
    obtain ⟨o, ho⟩ : ∃ o, op.impl.compile = some o := by
      refine Option.isSome_iff_exists.mp ?_
      rw [op.impl.compile_isSome, hop]
      rfl
    obtain ⟨hnone, hwindow⟩ := LogicalImpl.compile_spec ho
    refine ⟨o :: ops, ?_, List.forall_mem_cons.mpr ⟨hnone, hinput⟩, ?_⟩
    · rw [List.map_cons, List.map_cons, ← hops, ← ho]
      rfl
    · rw [List.countP_cons, List.countP_cons, hcount, hwindow]

open ExecutionGraph in
/-- **The JSON of a linear graph's pipelines** is a well-formed document. It lists the pipelines
with their operators, one more than the graph has windows, and for each window the channel from the
end of its pipeline to the root of the next one. -/
theorem toJson_build {g : DataflowGraph U} {path : List (LogicalOperator U)} (h : g.IsPath path)
    (hne : path ≠ []) (hjoin : ∀ op ∈ path, op.impl.isJoin = false) {keys : List OperatorId}
    (hkeys : keys.Perm g.inDegreeKeys) : ∃ (ops : Chain U) (ps : List (Chain U)),
      path.map (·.compile) = ops.map some ∧
      (∀ fuel, path.length + 1 ≤ fuel → build fuel keys g = some ps) ∧
      ps.length = (path.countP fun op => op.impl.isWindow) + 1 ∧ (∀ p ∈ ps, p ≠ []) ∧
      (ps.flatMap dropChannelSource).map PhysicalOperator.typeName =
        ops.map PhysicalOperator.typeName ∧
      Json.Document (toJson ps).toList (value ps
        ((List.range (path.countP fun op => op.impl.isWindow)).map fun i =>
          ⟨i, i, (ps.getD i []).length - 1, i + 1, 0⟩)) := by
  obtain ⟨ops, hops, hinput, hcount⟩ := exists_chain hjoin
  have hlen : path.length = ops.length := by simpa using congrArg List.length hops
  have hnil : ops ≠ [] := by
    rintro rfl
    exact hne (List.map_eq_nil_iff.mp hops)
  refine ⟨ops, pipelines 0 [] ops, hops, fun fuel hfuel => ?_, ?_, mem_pipelines_ne_nil 0 hnil,
    ?_, ?_⟩
  · unfold build
    rw [h.ofGraph_eq hne hkeys hops (by omega)]
    exact buildFrom_pipelines hnil (hlen ▸ hfuel)
  · rw [pipelines_length, hcount]
  · obtain ⟨root, rest, rfl⟩ := List.exists_cons_of_ne_nil hnil
    exact typeName_pipelines (hinput root List.mem_cons_self)
  · rw [← hcount, ← channelEntries_pipelines hinput]
    exact document_toJson _

/-- A source, a count window, a map, a time window and a sink, each with its id. -/
def windowGraph : DataflowGraph Unit where
  operators :=
    [⟨⟨1⟩, "source", 1, .source { func := fun s => (none, s), captured := () }⟩,
      ⟨⟨2⟩, "window", 1,
        .window ⟨countTumblingWindow 2, fun s es => (es.headD (eventAt 0), s), ()⟩⟩,
      ⟨⟨3⟩, "map", 1, .map ⟨fun s e => (e, s), ()⟩⟩,
      ⟨⟨4⟩, "window", 1, .window ⟨timeWindow 10 10, fun s es => (es.headD (eventAt 0), s), ()⟩⟩,
      ⟨⟨5⟩, "sink", 1, .sink ⟨fun s _ => s, ()⟩⟩]
  edges := [⟨⟨1⟩, ⟨1⟩, ⟨2⟩, .forward⟩, ⟨⟨2⟩, ⟨2⟩, ⟨3⟩, .forward⟩, ⟨⟨3⟩, ⟨3⟩, ⟨4⟩, .forward⟩,
    ⟨⟨4⟩, ⟨4⟩, ⟨5⟩, .forward⟩]

open ExecutionGraph in
theorem toJson_build_twoWindows : ∃ (ops : Chain Unit) (ps : List (Chain Unit)),
    windowGraph.operators.map (·.compile) = ops.map some ∧
      (∀ fuel, 6 ≤ fuel → build fuel [⟨3⟩, ⟨5⟩, ⟨1⟩, ⟨2⟩, ⟨4⟩] windowGraph = some ps) ∧
      ps.length = 3 ∧ (∀ p ∈ ps, p ≠ []) ∧
      (ps.flatMap dropChannelSource).map PhysicalOperator.typeName =
        ops.map PhysicalOperator.typeName ∧
      Json.Document (toJson ps).toList (value ps
        ((List.range 2).map fun i => ⟨i, i, (ps.getD i []).length - 1, i + 1, 0⟩)) :=
  @toJson_build Unit windowGraph windowGraph.operators ⟨.refl _, by decide, .refl _⟩
    (List.cons_ne_nil _ _) (by simp [windowGraph, LogicalImpl.isJoin]) [⟨3⟩, ⟨5⟩, ⟨1⟩, ⟨2⟩, ⟨4⟩]
    (by decide)

end Xtream
