import TomatOS.Foundation.RedBlack
import Mathlib.Logic.Function.Basic

/-! The red-black trees of `kernel/lib/rbtree`: the parent pointer and the colour of a node
in one word, its two child pointers and the root of one tree. The two mirrored branches of
each loop are one function of the side of the tree they work on. The callbacks are those of
a tree without augmented data, which do nothing. -/

namespace TomatOS.RbTree

open Foundation.RedBlack

/-- The words of the nodes, by address, and `root->rb_node`. -/
structure Mem where
  parentColor : ℕ → ℕ
  child : Side → ℕ → ℕ
  rbNode : ℕ

/-- The result is none if a null pointer is followed or a loop runs out of fuel. -/
abbrev Op := StateT Mem Option

/-- `RB_RED` and `RB_BLACK`. -/
def colorBit : Color → ℕ
  | .red => 0
  | .black => 1

namespace Mem

def setParentColor (m : Mem) (rb pc : ℕ) : Mem :=
  { m with parentColor := Function.update m.parentColor rb pc }

def setChild (m : Mem) (d : Side) (rb v : ℕ) : Mem :=
  { m with child := Function.update m.child d (Function.update (m.child d) rb v) }

end Mem

def loadParentColor (rb : ℕ) : Op ℕ := fun m =>
  if rb = 0 then none else some (m.parentColor rb, m)

def storeParentColor (rb pc : ℕ) : Op Unit := fun m =>
  if rb = 0 then none else some ((), m.setParentColor rb pc)

def loadChild (d : Side) (rb : ℕ) : Op ℕ := fun m =>
  if rb = 0 then none else some (m.child d rb, m)

def storeChild (d : Side) (rb v : ℕ) : Op Unit := fun m =>
  if rb = 0 then none else some ((), m.setChild d rb v)

def loadRoot : Op ℕ := fun m => some (m.rbNode, m)

def storeRoot (v : ℕ) : Op Unit := fun m => some ((), { m with rbNode := v })

/-- `__rb_parent`, the word without its two low bits. -/
def parentOf (pc : ℕ) : ℕ := pc / 4 * 4

def rbSetBlack (rb : ℕ) : Op Unit := do
  storeParentColor rb ((← loadParentColor rb) + colorBit .black)

def rbRedParent (red : ℕ) : Op ℕ := loadParentColor red

def rbParent (rb : ℕ) : Op ℕ := do
  let pc ← loadParentColor rb
  return parentOf pc

def rbIsBlack (rb : ℕ) : Op Bool := do
  let pc ← loadParentColor rb
  return pc % 2 == 1

def rbIsRed (rb : ℕ) : Op Bool := do
  let pc ← loadParentColor rb
  return pc % 2 == 0

def rbSetParent (rb p : ℕ) : Op Unit := do
  let pc ← loadParentColor rb
  storeParentColor rb (pc % 2 + p)

def rbSetParentColor (rb p : ℕ) (color : Color) : Op Unit := storeParentColor rb (p + colorBit color)

def rbChangeChild (old new parent : ℕ) : Op Unit :=
  if parent = 0 then storeRoot new
  else do
    let left ← loadChild .left parent
    if left = old then storeChild .left parent new else storeChild .right parent new

def rbRotateSetParents (old new : ℕ) (color : Color) : Op Unit := do
  let parent ← rbParent old
  let pc ← loadParentColor old
  storeParentColor new pc
  rbSetParentColor old new color
  rbChangeChild old new parent

/-- `rb && rb_is_red(rb)`; its negation is `!rb || rb_is_black(rb)`. -/
def isRedNode (rb : ℕ) : Op Bool := if rb = 0 then pure false else rbIsRed rb

/-- `if (rb) f`. -/
def unlessNull (rb : ℕ) (f : Op Unit) : Op Unit := if rb = 0 then pure () else f

/-! ### Insertion -/

/-- Case 2 of the insertion loop: the new parent and its child towards `gparent`'s other
side. -/
def rbInsertInner (d : Side) (node parent : ℕ) : Op (ℕ × ℕ) := do
  let tmp ← loadChild d node
  storeChild d.other parent tmp
  storeChild d node parent
  unlessNull tmp (rbSetParentColor tmp parent .black)
  rbSetParentColor parent node .red
  let tmp ← loadChild d.other node
  return (node, tmp)

/-- Case 3 of the insertion loop. -/
def rbInsertOuter (d : Side) (parent gparent tmp : ℕ) : Op Unit := do
  storeChild d gparent tmp
  storeChild d.other parent gparent
  unlessNull tmp (rbSetParentColor tmp gparent .black)
  rbRotateSetParents gparent parent .red

/-- The branch of the insertion loop for a `parent` on the side `d` of `gparent` and `tmp` on
the other one: the node and the parent that the loop goes on with, if it does. -/
def rbInsertStep (d : Side) (node parent gparent tmp : ℕ) : Op (Option (ℕ × ℕ)) := do
  let red ← isRedNode tmp
  if red then
    rbSetParentColor tmp gparent .black
    rbSetParentColor parent gparent .black
    let up ← rbParent gparent
    rbSetParentColor gparent up .red
    return some (gparent, up)
  else
    let tmp ← loadChild d.other parent
    if node = tmp then
      let (parent, tmp) ← rbInsertInner d node parent
      rbInsertOuter d parent gparent tmp
      return none
    else
      rbInsertOuter d parent gparent tmp
      return none

/-- One iteration of the loop of `__rb_insert`. -/
def rbInsertBody (node parent : ℕ) : Op (Option (ℕ × ℕ)) :=
  if parent = 0 then do
    rbSetParentColor node 0 .black
    return none
  else do
    let black ← rbIsBlack parent
    if black then return none
    else
      let gparent ← rbRedParent parent
      let tmp ← loadChild .right gparent
      if parent ≠ tmp then rbInsertStep .left node parent gparent tmp
      else
        let tmp ← loadChild .left gparent
        rbInsertStep .right node parent gparent tmp

def rbInsert : ℕ → ℕ → ℕ → Op Unit
  | 0, _, _ => failure
  | fuel + 1, node, parent => do
    let next ← rbInsertBody node parent
    match next with
    | some (node, parent) => rbInsert fuel node parent
    | none => return ()

def rbInsertColor (fuel node : ℕ) : Op Unit := do
  let parent ← rbRedParent node
  rbInsert fuel node parent

/-! ### Erasing -/

/-- Case 1 of the loop behind an erasure: the sibling after it. -/
def rbEraseRedSibling (d : Side) (parent sibling : ℕ) : Op ℕ := do
  let red ← rbIsRed sibling
  if red then
    let tmp1 ← loadChild d sibling
    storeChild d.other parent tmp1
    storeChild d sibling parent
    rbSetParentColor tmp1 parent .black
    rbRotateSetParents parent sibling .red
    return tmp1
  else return sibling

/-- Case 2: the node and the parent that the loop goes on with, if it does. -/
def rbEraseFlip (parent sibling : ℕ) : Op (Option (ℕ × ℕ)) := do
  rbSetParentColor sibling parent .red
  let red ← rbIsRed parent
  if red then
    rbSetBlack parent
    return none
  else
    let up ← rbParent parent
    return if up = 0 then none else some (parent, up)

/-- Case 3: the red child `tmp2` of the sibling takes the sibling's place. -/
def rbEraseInner (d : Side) (parent sibling tmp2 : ℕ) : Op Unit := do
  let tmp1 ← loadChild d.other tmp2
  storeChild d sibling tmp1
  storeChild d.other tmp2 sibling
  storeChild d.other parent tmp2
  unlessNull tmp1 (rbSetParentColor tmp1 sibling .black)

/-- Case 4. -/
def rbEraseOuter (d : Side) (parent sibling tmp1 : ℕ) : Op Unit := do
  let tmp2 ← loadChild d sibling
  storeChild d.other parent tmp2
  storeChild d sibling parent
  rbSetParentColor tmp1 sibling .black
  unlessNull tmp2 (rbSetParent tmp2 parent)
  rbRotateSetParents parent sibling .black

/-- Cases 2 to 4, for a black sibling. -/
def rbEraseBlackSibling (d : Side) (parent sibling : ℕ) : Op (Option (ℕ × ℕ)) := do
  let tmp1 ← loadChild d.other sibling
  let red1 ← isRedNode tmp1
  if red1 then
    rbEraseOuter d parent sibling tmp1
    return none
  else
    let tmp2 ← loadChild d sibling
    let red2 ← isRedNode tmp2
    if red2 then
      rbEraseInner d parent sibling tmp2
      rbEraseOuter d parent tmp2 sibling
      return none
    else rbEraseFlip parent sibling

/-- The branch of the loop behind an erasure for a node on the side `d` of `parent`. -/
def rbEraseStep (d : Side) (parent sibling : ℕ) : Op (Option (ℕ × ℕ)) := do
  let sibling ← rbEraseRedSibling d parent sibling
  rbEraseBlackSibling d parent sibling

/-- One iteration of the loop of `____rb_erase_color`. -/
def rbEraseBody (node parent : ℕ) : Op (Option (ℕ × ℕ)) := do
  let sibling ← loadChild .right parent
  if node ≠ sibling then rbEraseStep .left parent sibling
  else
    let sibling ← loadChild .left parent
    rbEraseStep .right parent sibling

def rbEraseColor : ℕ → ℕ → ℕ → Op Unit
  | 0, _, _ => failure
  | fuel + 1, node, parent => do
    let next ← rbEraseBody node parent
    match next with
    | some (node, parent) => rbEraseColor fuel node parent
    | none => return ()

/-- The loop to the leftmost node below a right child, with that node's parent. -/
def rbSuccessor : ℕ → ℕ → ℕ → Op (ℕ × ℕ)
  | 0, _, _ => failure
  | fuel + 1, parent, successor => do
    let tmp ← loadChild .left successor
    if tmp ≠ 0 then rbSuccessor fuel successor tmp else return (parent, successor)

/-- Cases 2 and 3 of an erasure: the parent of the successor's old place, the successor and
its only child. -/
def rbDetachSuccessor (fuel child : ℕ) : Op (ℕ × ℕ × ℕ) := do
  let tmp ← loadChild .left child
  if tmp = 0 then
    let child2 ← loadChild .right child
    return (child, child, child2)
  else
    let (parent, successor) ← rbSuccessor fuel child tmp
    let child2 ← loadChild .right successor
    storeChild .left parent child2
    storeChild .right successor child
    rbSetParent child successor
    return (parent, successor, child2)

/-- `__rb_erase_augmented`: the node to rebalance at. -/
def rbEraseAugmented (fuel node : ℕ) : Op ℕ := do
  let child ← loadChild .right node
  let tmp ← loadChild .left node
  if tmp = 0 then
    let pc ← loadParentColor node
    rbChangeChild node child (parentOf pc)
    if child ≠ 0 then
      storeParentColor child pc
      return 0
    else return if pc % 2 = 1 then parentOf pc else 0
  else if child = 0 then
    let pc ← loadParentColor node
    storeParentColor tmp pc
    rbChangeChild node tmp (parentOf pc)
    return 0
  else
    let (parent, successor, child2) ← rbDetachSuccessor fuel child
    let tmp ← loadChild .left node
    storeChild .left successor tmp
    rbSetParent tmp successor
    let pc ← loadParentColor node
    rbChangeChild node successor (parentOf pc)
    if child2 ≠ 0 then
      rbSetParentColor child2 parent .black
      storeParentColor successor pc
      return 0
    else
      let black ← rbIsBlack successor
      storeParentColor successor pc
      return if black then parent else 0

def rbErase (fuel node : ℕ) : Op Unit := do
  let rebalance ← rbEraseAugmented fuel node
  if rebalance ≠ 0 then rbEraseColor fuel 0 rebalance else return ()

/-! ### Walking -/

/-- Follow the children on one side as long as there are any. -/
def rbDescend (d : Side) : ℕ → ℕ → Op ℕ
  | 0, _ => failure
  | fuel + 1, n => do
    let next ← loadChild d n
    if next ≠ 0 then rbDescend d fuel next else return n

/-- The two functions `rb_first` and `rb_last`. -/
def rbEnd (d : Side) (fuel : ℕ) : Op ℕ := do
  let n ← loadRoot
  if n = 0 then return 0 else rbDescend d fuel n

def rbFirst : ℕ → Op ℕ := rbEnd .left

def rbLast : ℕ → Op ℕ := rbEnd .right

/-- Go up as long as the node is the child on the side `d` of its parent: the parent. -/
def rbAscend (d : Side) : ℕ → ℕ → Op ℕ
  | 0, _ => failure
  | fuel + 1, node => do
    let parent ← rbParent node
    if parent = 0 then return 0
    else
      let child ← loadChild d parent
      if node = child then rbAscend d fuel parent else return parent

/-- `RB_EMPTY_NODE`. -/
def rbEmptyNode (node : ℕ) : Op Bool := do
  let pc ← loadParentColor node
  return pc == node

/-- The two functions `rb_next` and `rb_prev`. -/
def rbStep (d : Side) (fuel node : ℕ) : Op ℕ := do
  let empty ← rbEmptyNode node
  if empty then return 0
  else
    let child ← loadChild d node
    if child ≠ 0 then rbDescend d.other fuel child else rbAscend d fuel node

def rbNext : ℕ → ℕ → Op ℕ := rbStep .right

def rbPrev : ℕ → ℕ → Op ℕ := rbStep .left

/-- `*new = *victim`. -/
def copyNode (new victim : ℕ) : Op Unit := do
  let pc ← loadParentColor victim
  let right ← loadChild .right victim
  let left ← loadChild .left victim
  storeParentColor new pc
  storeChild .right new right
  storeChild .left new left

def rbReplaceNode (victim new : ℕ) : Op Unit := do
  let parent ← rbParent victim
  copyNode new victim
  let left ← loadChild .left victim
  unlessNull left (rbSetParent left new)
  let right ← loadChild .right victim
  unlessNull right (rbSetParent right new)
  rbChangeChild victim new parent

def rbLeftDeepestNode : ℕ → ℕ → Op ℕ
  | 0, _ => failure
  | fuel + 1, node => do
    let left ← loadChild .left node
    if left ≠ 0 then rbLeftDeepestNode fuel left
    else
      let right ← loadChild .right node
      if right ≠ 0 then rbLeftDeepestNode fuel right else return node

def rbNextPostorder (fuel node : ℕ) : Op ℕ :=
  if node = 0 then return 0
  else do
    let parent ← rbParent node
    if parent = 0 then return 0
    else
      let left ← loadChild .left parent
      let right ← loadChild .right parent
      if node = left ∧ right ≠ 0 then rbLeftDeepestNode fuel right else return parent

def rbFirstPostorder (fuel : ℕ) : Op ℕ := do
  let n ← loadRoot
  if n = 0 then return 0 else rbLeftDeepestNode fuel n

end TomatOS.RbTree
