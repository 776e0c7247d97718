import Playhead.Zlib.PrefixCode

/-!
# Choosing code lengths

Given how often each symbol occurs, a good prefix code gives the frequent symbols short codes. This
file chooses the **lengths** of such a code (`Playhead.Zlib.codeLengths`):

* `Playhead.Zlib.mergeDepths` – the two lightest trees are joined until one is left, and only the
  depths of its leaves are kept;
* `Playhead.Zlib.limitDepths` – leaves below the greatest depth allowed are lifted to it, and
  others pushed down until all have a place;
* the depths are dealt out, the greatest depth to the rarest symbol.

The choice matters for the size of what is written and for nothing else.
-/

namespace Playhead.Zlib

/-- A tree over some symbols: how often they occur together and the depths of the leaves. -/
structure Weighed where
  weight : Nat
  depths : List Nat

/-- Two trees under one root. -/
def Weighed.join (a b : Weighed) : Weighed :=
  ⟨a.weight + b.weight, (a.depths ++ b.depths).map (· + 1)⟩

/-- The lightest tree of two queues in ascending order, and what is left of them; the first queue
wins a tie. -/
def lightest? : List Weighed → List Weighed → Option (Weighed × List Weighed × List Weighed)
  | [], [] => none
  | leaf :: leaves, [] => some (leaf, leaves, [])
  | [], node :: nodes => some (node, [], nodes)
  | leaf :: leaves, node :: nodes =>
    if node.weight < leaf.weight then some (node, leaf :: leaves, nodes)
    else some (leaf, leaves, node :: nodes)

/-- Joins the two lightest trees, at most `bound` times, as long as there are two. Joined trees come
out in ascending order, so they queue up behind each other. -/
def joinAll : Nat → List Weighed → List Weighed → List Weighed
  | 0, leaves, nodes => leaves ++ nodes
  | bound + 1, leaves, nodes =>
    match lightest? leaves nodes with
    | none => []
    | some (a, leaves', nodes') =>
      match lightest? leaves' nodes' with
      | none => [a]
      | some (b, leaves', nodes') => joinAll bound leaves' (nodes' ++ [a.join b])

/-- The depths of the leaves of the best tree over symbols of the given weights, which ascend; a
single symbol has depth one. -/
def mergeDepths (weights : List Nat) : List Nat :=
  match weights with
  | [_] => [1]
  | _ => (joinAll weights.length (weights.map fun w => ⟨w, [0]⟩) []).flatMap Weighed.depths

/-- How many places at depth `limit` leaves take up, `counts[d]` of them at depth `d + 1`. -/
def placesTaken (limit : Nat) (counts : Array Nat) : Nat :=
  counts.toList.zipIdx.foldl (fun taken (count, d) => taken + count * Nat.pow 2 (limit - (d + 1))) 0

/-- Frees one place: the deepest leaf above the greatest depth moves down, and a leaf of greatest
depth becomes its neighbour. -/
def freePlace (counts : Array Nat) : Array Nat :=
  let deepest := counts.size - 1
  let counts := counts.modify deepest (· - 1)
  match (List.range deepest).reverse.find? fun d => counts.getD d 0 ≠ 0 with
  | some d => (counts.modify d (· - 1)).modify (d + 1) (· + 2)
  | none => counts

/-- The number of leaves at each depth from one up to `limit`, when no leaf may lie deeper. -/
def limitDepths (limit : Nat) (depths : List Nat) : Array Nat :=
  let counts := depths.foldl (fun counts d => counts.modify (min d limit - 1) (· + 1))
    (Array.replicate limit 0)
  let excess := placesTaken limit counts - Nat.pow 2 limit
  (List.range excess).foldl (fun counts _ => freePlace counts) counts

/-- The length of the code of each symbol, at most `limit`, from how often the symbols occur; zero
for a symbol that does not. Of two symbols that occur equally often, the later one is treated as the
more frequent. -/
def codeLengths (limit : Nat) (frequencies : List Nat) : List Nat :=
  let ranked := (frequencies.zipIdx.filter fun entry => entry.1 ≠ 0).mergeSort
    fun a b => a.1 ≤ b.1
  let counts := limitDepths limit (mergeDepths (ranked.map Prod.fst))
  let ascending := counts.toList.zipIdx.flatMap fun (count, d) => List.replicate count (d + 1)
  let lengths := ascending.reverse
  let chosen := (ranked.map Prod.snd).zip lengths
  let table := chosen.foldl (fun table (symbol, length) => table.set! symbol length)
    (Array.replicate frequencies.length 0)
  table.toList

end Playhead.Zlib
