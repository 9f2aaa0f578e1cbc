import Zephyr.Lib.RedBlack.Search
import Mathlib.Data.BitVec
/-!
# `rbtree`: the code (lib/rbtree/rb.c, include/misc/rb.h)

Nodes are addresses of an arbitrary type `α`, memory maps an address to its `struct rbnode`. The
scratch array `stack[]` is a list with its top first, so `stack[stacksz - 1]` is the head and
`stack[0]` the last entry; entries above `stacksz` are never read again and are dropped. A write past
the end of the array, a `NULL` that is followed and a negative index make the model answer `none`.
-/
namespace Zephyr

open RedBlack Function

/-! ## The colour bit -/

/-- A `struct rbnode`: `children[0]` (`false`) also holds the colour in bit 0. -/
structure Word (w : Nat) where
  children : Bool → BitVec w

namespace Word

variable {w : Nat}

def getChild (n : Word w) (side : Bool) : BitVec w :=
  if side then n.children true else n.children false &&& ~~~1#w

def setChild (n : Word w) (side : Bool) (val : BitVec w) : Word w :=
  if side then ⟨update n.children true val⟩
  else ⟨update n.children false (val ||| (n.children false &&& 1#w))⟩

def getColor (n : Word w) : Color := if n.children false &&& 1#w = 1#w then .black else .red

/-- `enum rb_color { RED = 0, BLACK = 1 }` -/
def ofColor : Color → BitVec w
  | .red => 0#w
  | .black => 1#w

def setColor (n : Word w) (color : Color) : Word w :=
  ⟨update n.children false ((n.children false &&& ~~~1#w) ||| ofColor color)⟩

end Word

/-! ## Memory -/

/-- The fields a `struct rbnode` packs. -/
structure RbNode (α : Type*) where
  child : Bool → Option α
  color : Color

abbrev Heap (α : Type*) := α → RbNode α

/-- `struct rbtree` less its comparison function, which is a parameter. -/
structure RbTree (α : Type*) where
  root : Option α
  maxDepth : Nat

variable {α : Type*} [DecidableEq α]

namespace Heap

section

variable (H : Heap α) (n : α)

def getChild (side : Bool) : Option α := (H n).child side

def setChild (side : Bool) (val : Option α) : Heap α :=
  update H n { H n with child := update (H n).child side val }

def getColor : Color := (H n).color

def setColor (color : Color) : Heap α := update H n { H n with color := color }

def isBlack : Bool := H.getColor n = .black

def isRed : Bool := H.getColor n = .red

end

/-- `ch && is_red(ch)` -/
def redChild (H : Heap α) : Option α → Bool
  | none => false
  | some n => H.isRed n

def getSide (H : Heap α) (parent child : α) : Bool := H.getChild parent true = some child

end Heap

/-- `stack[stacksz++] = x` in an array of `cap` entries. -/
def push (cap : Nat) (stack : List α) (x : α) : Option (List α) :=
  if stack.length < cap then some (x :: stack) else none

variable (lt : α → α → Bool)

/-- The loop of `find_and_stack`; `room` entries of the array are free. -/
def findLoop (H : Heap α) (node : α) : Nat → List α → Option (List α)
  | _, [] => none
  | room, top :: rest =>
    if top = node then some (top :: rest)
    else match H.getChild top (!lt node top), room with
      | none, _ => some (top :: rest)
      | some _, 0 => none
      | some ch, room + 1 => findLoop H node room (ch :: top :: rest)

def findAndStack (H : Heap α) (root node : α) (cap : Nat) : Option (List α) :=
  match cap with
  | 0 => none
  | room + 1 => findLoop lt H node room [root]

def rotate (H : Heap α) : List α → Option (Heap α × List α)
  | child :: parent :: rest =>
    let side := H.getSide parent child
    let a := H.getChild child side
    let b := H.getChild child (!side)
    let H := match rest with
      | [] => H
      | grandparent :: _ => H.setChild grandparent (H.getSide grandparent parent) (some child)
    let H := H.setChild child side a
    let H := H.setChild child (!side) (some parent)
    let H := H.setChild parent side b
    some (H, parent :: child :: rest)
  | _ => none

/-- Each round looks at a node, its parent and its grandparent and moves up by two. -/
def fixExtraRed (H : Heap α) : List α → Option (Heap α × List α)
  | [] => none
  | [root] => some (H.setColor root .black, [root])
  | node :: parent :: rest =>
    if H.isBlack parent then some (H, node :: parent :: rest)
    else match rest with
      | [] => none
      | grandparent :: up =>
        let side := H.getSide grandparent parent
        let aunt := H.getChild grandparent (!side)
        match aunt.filter H.isRed with
        | some aunt =>
          let H := H.setColor grandparent .red
          let H := H.setColor parent .black
          fixExtraRed (H.setColor aunt .black) (grandparent :: up)
        | none => do
          let (H, stack) ← if H.getSide parent node ≠ side then rotate H (node :: parent :: grandparent :: up)
            else some (H, node :: parent :: grandparent :: up)
          -- `rotate(stack, stacksz - 1)` leaves the top entry alone
          let top ← stack.head?
          let (H, stack) ← rotate H stack.tail
          match stack with
          | low :: high :: _ => some ((H.setColor high .black).setColor low .red, top :: stack)
          | _ => none
termination_by stack => stack.length

def rbInsert (H : Heap α) (t : RbTree α) (node : α) : Option (Heap α × RbTree α) :=
  let H := (H.setChild node false none).setChild node true none
  match t.root with
  | none => some (H.setColor node .black, ⟨some node, 1⟩)
  | some root => do
    let stack ← findAndStack lt H root node (t.maxDepth + 1)
    let parent ← stack.head?
    let side := !lt node parent
    let H := (H.setChild parent side (some node)).setColor node .red
    let stack ← push (t.maxDepth + 1) stack node
    let (H, fixed) ← fixExtraRed H stack
    some (H, ⟨fixed.getLast?, if stack.length > t.maxDepth then stack.length else t.maxDepth⟩)

/-- What a round of `fix_missing_black` ends in. -/
inductive Round (α : Type*) where
  | done (H : Heap α) (stack : List α)
  | again (H : Heap α) (stack : List α)

/-- A round from the point where the sibling is black (rb.c:289-362); `stack` has `n` on top of `parent`. -/
def settle (H : Heap α) (cap : Nat) (nullNode : Option α) (nSide : Bool) (n parent : α) (rest : List α) :
    Option (Round α) := do
  let sib ← H.getChild parent (!nSide)
  if !H.redChild (H.getChild sib false) && !H.redChild (H.getChild sib true) then
    let H := if nullNode = some n then H.setChild parent nSide none else H
    let H := H.setColor sib .red
    if H.isBlack parent then some (.again H (parent :: rest))
    else some (.done (H.setColor parent .black) (n :: parent :: rest))
  else
    let (H, sib, outer) ← if H.redChild (H.getChild sib (!nSide)) then some (H, sib, H.getChild sib (!nSide)) else do
        let inner ← H.getChild sib nSide
        let stack ← push cap (sib :: parent :: rest) inner
        let (H, _) ← rotate H stack
        let H := (H.setColor sib .red).setColor inner .black
        -- the rotation has put `inner` into `sib`'s place on the stack
        some (H, inner, H.getChild inner (!nSide))
    let outer ← outer
    let H := H.setColor sib (H.getColor parent)
    let H := (H.setColor parent .black).setColor outer .black
    let (H, stack) ← rotate H (sib :: parent :: rest)
    some (.done (if nullNode = some n then H.setChild parent nSide none else H) stack)

/-- One round of `fix_missing_black` (rb.c:261-362). -/
def missingBlackRound (H : Heap α) (cap : Nat) (nullNode : Option α) (n parent : α) (rest : List α) :
    Option (Round α) := do
  let nSide := H.getSide parent n
  let sib ← H.getChild parent (!nSide)
  if H.isBlack sib then settle H cap nullNode nSide n parent rest
  else do
    let (H, stack) ← rotate H (sib :: parent :: rest)
    let H := (H.setColor parent .red).setColor sib .black
    let stack ← push cap stack n
    match stack with
    | n :: parent :: rest => settle H cap nullNode nSide n parent rest
    | _ => none

def fixMissingBlack (cap : Nat) (nullNode : Option α) : Nat → Heap α → List α → Option (Heap α × List α)
  | 0, _, _ => none
  | fuel + 1, H, n :: parent :: rest => do
    match ← missingBlackRound H cap nullNode n parent rest with
    | .done H stack => some (H, stack)
    | .again H stack => fixMissingBlack cap nullNode fuel H stack
  | _ + 1, H, stack => some (H, stack)

/-- `while (get_child(node2, 1))`: the nodes pushed on the way, last first. -/
def limb (H : Heap α) : Nat → List α → Option (List α)
  | _, [] => none
  | room, node2 :: rest =>
    match H.getChild node2 true, room with
    | none, _ => some (node2 :: rest)
    | some _, 0 => none
    | some ch, room + 1 => limb H room (ch :: node2 :: rest)

/-- `node`, with two children and `rest` above it, changes places with the biggest node of its left
subtree: memory, root and stack. -/
def swapDown (H : Heap α) (cap : Nat) (root : Option α) (node : α) (rest : List α) :
    Option (Heap α × Option α × List α) := do
  let left ← H.getChild node false
  let stack ← push cap (node :: rest) left
  let pushed ← limb H (cap - stack.length) [left]
  match pushed with
  | [] => none
  | node2 :: mid =>
    let loparent := mid.headD node
    let (H, root) := match rest with
      | hiparent :: _ => (H.setChild hiparent (H.getSide hiparent node) (some node2), root)
      | [] => (H, some node2)
    let H := if loparent = node then
        let H := H.setChild node false (H.getChild node2 false)
        H.setChild node2 false (some node)
      else
        let H := H.setChild loparent (H.getSide loparent node2) (some node)
        let tmp := H.getChild node false
        let H := H.setChild node false (H.getChild node2 false)
        H.setChild node2 false tmp
    let H := H.setChild node2 true (H.getChild node true)
    let H := H.setChild node true none
    let ctmp := H.getColor node
    let H := H.setColor node (H.getColor node2)
    let H := H.setColor node2 ctmp
    some (H, root, node :: (mid ++ node2 :: rest))

/-- `rb_remove` from the point where `node` has at most one child (rb.c:445-479). -/
def dropNode (H : Heap α) (t : RbTree α) (stack : List α) : Option (Heap α × RbTree α) :=
  match stack with
  | [] => none
  | node :: up => do
    let child := (H.getChild node false).or (H.getChild node true)
    match up with
    | [] =>
      match child with
      | some c => some (H.setColor c .black, { t with root := some c })
      | none => some (H, ⟨none, 0⟩)
    | parent :: _ =>
      let (H, stack) ← match child with
        | none =>
          if H.isBlack node then fixMissingBlack (t.maxDepth + 1) (some node) (stack.length + 1) H stack
          else some (H.setChild parent (H.getSide parent node) none, stack)
        | some c =>
          let H := H.setChild parent (H.getSide parent node) (some c)
          if H.isRed node || H.isRed c then some (H.setColor c .black, stack)
          else fixMissingBlack (t.maxDepth + 1) none (stack.length + 1) H (c :: up)
      some (H, { t with root := stack.getLast? })

def rbRemove (H : Heap α) (t : RbTree α) (node : α) : Option (Heap α × RbTree α) := do
  let root ← t.root
  let stack ← findAndStack lt H root node (t.maxDepth + 1)
  match stack with
  | [] => none
  | top :: rest =>
    if top ≠ node then some (H, t)
    else if (H.getChild node false).isSome && (H.getChild node true).isSome then do
      let (H, root, stack) ← swapDown H (t.maxDepth + 1) t.root node rest
      dropNode H { t with root := root } stack
    else dropNode H t (node :: rest)

/-! ## Queries -/

def rbContainsLoop (H : Heap α) (node : α) : Nat → Option α → Option Bool
  | 0, _ => none
  | _ + 1, none => some false
  | fuel + 1, some n => if n = node then some true else rbContainsLoop H node fuel (H.getChild n (lt n node))

/-- The loop is given `fuel` rounds. -/
def rbContains (H : Heap α) (t : RbTree α) (node : α) (fuel : Nat) : Option Bool := rbContainsLoop lt H node fuel t.root

omit [DecidableEq α] in
/-- `for (n = root; n && get_child(n, side); n = get_child(n, side))` with `fuel` rounds. -/
def rbGetMinmaxLoop (H : Heap α) (side : Bool) : Nat → Option α → Option (Option α)
  | 0, _ => none
  | _ + 1, none => some none
  | fuel + 1, some n =>
    match H.getChild n side with
    | none => some (some n)
    | some c => rbGetMinmaxLoop H side fuel (some c)

def rbGetMinmax (H : Heap α) (t : RbTree α) (side : Bool) (fuel : Nat) : Option (Option α) :=
  rbGetMinmaxLoop H side fuel t.root

/-- `_rb_walk` with a recursion of depth `fuel` at most: the nodes in the order of their visit. -/
def rbWalk (H : Heap α) : Nat → Option α → Option (List α)
  | _, none => some []
  | 0, some _ => none
  | fuel + 1, some node => do
    let before ← rbWalk H fuel (H.getChild node false)
    let after ← rbWalk H fuel (H.getChild node true)
    some (before ++ node :: after)

/-- `struct _rb_foreach`: `stack[]` and `is_left[]` of `max_depth` entries each, top first; empty is `top == -1`. -/
abbrev RbForeach (α : Type*) := List (α × Bool)

/-- `while ((n = get_child(n, 0)))` of `stack_left_limb`; `room` entries are free. -/
def leftLimbLoop (H : Heap α) : Nat → RbForeach α → Option (RbForeach α)
  | _, [] => none
  | room, (n, l) :: f =>
    match H.getChild n false, room with
    | none, _ => some ((n, l) :: f)
    | some _, 0 => none
    | some c, room + 1 => leftLimbLoop H room ((c, true) :: (n, l) :: f)

def stackLeftLimb (H : Heap α) (maxDepth : Nat) (n : α) (f : RbForeach α) : Option (RbForeach α) :=
  if f.length < maxDepth then leftLimbLoop H (maxDepth - f.length - 1) ((n, false) :: f) else none

/-- `while (f->top > 0 && !f->is_left[f->top]) f->top--`, then one more. -/
def popRight : RbForeach α → RbForeach α
  | [] => []
  | [_] => []
  | (_, true) :: f => f
  | (_, false) :: f => popRight f

/-- The new `f`; the node returned is its top, none when it is empty. -/
def rbForeachNext (H : Heap α) (t : RbTree α) (f : RbForeach α) : Option (RbForeach α) :=
  match t.root with
  | none => some []
  | some root =>
    match f with
    | [] => stackLeftLimb H t.maxDepth root []
    | (n, l) :: f =>
      match H.getChild n true with
      | some r => stackLeftLimb H t.maxDepth r ((n, l) :: f)
      | none => some (if l then f else popRight ((n, l) :: f))

/-- `RB_FOR_EACH` from `f` on, for at most `fuel` nodes: the nodes in the order of their visit. -/
def rbForEachFrom (H : Heap α) (t : RbTree α) : Nat → RbForeach α → Option (List α)
  | 0, _ => none
  | fuel + 1, f => do
    match ← rbForeachNext H t f with
    | [] => some []
    | (n, l) :: f => (rbForEachFrom H t fuel ((n, l) :: f)).map (n :: ·)

/-- `RB_FOR_EACH(tree, node)` -/
def rbForEach (H : Heap α) (t : RbTree α) (fuel : Nat) : Option (List α) := rbForEachFrom H t fuel []

end Zephyr
