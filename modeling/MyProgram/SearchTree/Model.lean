import MyProgram.Lib.Act
import MyProgram.Lib.CInt
import MyProgram.Lib.PtrTree

/-! The binary search tree: nodes with parent pointers, insertion, deletion and
the walk that copies the keys out. -/
namespace MyProgram.SearchTree
open Lib

abbrev TKey := Int

abbrev STSearchTreeNode := TreeCell Nat TKey

/-- The functions a fault can happen in. -/
inductive Site where
  | search | treeSuccessor | treePreDecessor | transplant | deleteNode | insert | inorderTreeWalk | minKey | maxKey
  deriving DecidableEq, Repr

/-- An array of the caller is released. -/
inductive Effect where
  | deleteArray
  deriving DecidableEq, Repr

abbrev TreeM := Act Site Effect

/-- The tree beside the nodes `new` has made so far. A pointer is the position of
a node, and nodes are never released. -/
structure CBinarySearchTree where
  nodes : List STSearchTreeNode
  m_pRoot : Option Nat
  m_nLen : Int
  deriving DecidableEq, Repr

namespace CBinarySearchTree

/-- The constructor. -/
def new : CBinarySearchTree := ⟨[],none,0⟩

/-- Read the node behind a pointer. -/
def deref (s : CBinarySearchTree) (site : Site) : Option Nat → TreeM STSearchTreeNode
  | none => .fail .nullDereference site
  | some p => match s.nodes[p]? with
    | some n => .ok n []
    | none => .fail .uninitialised site

/-- Change the node behind a pointer. -/
def write (s : CBinarySearchTree) (site : Site) (p : Option Nat) (f : STSearchTreeNode → STSearchTreeNode) :
    TreeM CBinarySearchTree :=
  match p with
  | none => .fail .nullDereference site
  | some p => match s.nodes[p]? with
    | some n => .ok { s with nodes := s.nodes.set p (f n) } []
    | none => .fail .uninitialised site

/-- The loop of `search`. It passes a node twice, and so never ends, when it
takes more steps than there are nodes. -/
def searchLoop (s : CBinarySearchTree) (key : TKey) : Nat → Option Nat → TreeM (Option Nat)
  | _, none => pure none
  | 0, some _ => .fail .diverges .search
  | n+1, some p => do
    let pNode ← s.deref .search (some p)
    if pNode.key = key then pure (some p)
    else if pNode.key > key then searchLoop s key n pNode.left
    else searchLoop s key n pNode.right

def search (s : CBinarySearchTree) (key : TKey) : TreeM (Option Nat) := s.searchLoop key s.nodes.length s.m_pRoot

/-- Down to the smallest node of a subtree. -/
def minimumLoop (s : CBinarySearchTree) : Nat → Nat → TreeM Nat
  | 0, _ => .fail .diverges .treeSuccessor
  | n+1, pTmp => do
    let tmp ← s.deref .treeSuccessor (some pTmp)
    match tmp.left with
    | none => pure pTmp
    | some l => minimumLoop s n l

/-- Up to the lowest ancestor in whose left subtree the node is. -/
def ancestorLoop (s : CBinarySearchTree) : Nat → Nat → Option Nat → TreeM (Option Nat)
  | _, _, none => pure none
  | 0, _, some _ => .fail .diverges .treeSuccessor
  | n+1, pNode, some y => do
    let yn ← s.deref .treeSuccessor (some y)
    if some pNode = yn.right then ancestorLoop s n y yn.parent else pure (some y)

def treeSuccessor (s : CBinarySearchTree) (key : TKey) : TreeM (Option Nat) := do
  match ← s.search key with
  | none => pure none
  | some p => do
    let pNode ← s.deref .treeSuccessor (some p)
    match pNode.right with
    | some r => do
      let m ← s.minimumLoop s.nodes.length r
      pure (some m)
    | none => s.ancestorLoop s.nodes.length p pNode.parent

/-- Down from `pTmp` along one of the child pointers. -/
def descend (s : CBinarySearchTree) (site : Site) (child : STSearchTreeNode → Option Nat) : Nat → Nat → TreeM Nat
  | 0, _ => .fail .diverges site
  | n+1, pTmp => do
    let tmp ← s.deref site (some pTmp)
    match child tmp with
    | none => pure pTmp
    | some q => descend s site child n q

/-- Up from `pNode` and its parent `y` as long as the node is this child. -/
def climb (s : CBinarySearchTree) (site : Site) (child : STSearchTreeNode → Option Nat) : Nat → Nat → Option Nat → TreeM (Option Nat)
  | _, _, none => pure none
  | 0, _, some _ => .fail .diverges site
  | n+1, pNode, some y => do
    let yn ← s.deref site (some y)
    if some pNode = child yn then climb s site child n y yn.parent else pure (some y)

def treePreDecessor (s : CBinarySearchTree) (key : TKey) : TreeM (Option Nat) := do
  match ← s.search key with
  | none => pure none
  | some p => do
    let pNode ← s.deref .treePreDecessor (some p)
    match pNode.left with
    | some l => do
      let m ← s.descend .treePreDecessor (·.right) s.nodes.length l
      pure (some m)
    | none => s.climb .treePreDecessor (·.left) s.nodes.length p pNode.parent

/-- `minKey` and `maxKey`: behind the loop the key is read from the child of the last
node. `key` is what the argument holds before. -/
def extremeKey (s : CBinarySearchTree) (site : Site) (child : STSearchTreeNode → Option Nat) (key : TKey) : TreeM (TKey × Bool) :=
  match s.m_pRoot with
  | none => pure (key,false)
  | some p => do
    let pNode ← s.descend site child s.nodes.length p
    let node ← s.deref site (some pNode)
    let last ← s.deref site (child node)
    pure (last.key,true)

def minKey (s : CBinarySearchTree) (key : TKey) : TreeM (TKey × Bool) := s.extremeKey .minKey (·.left) key

def maxKey (s : CBinarySearchTree) (key : TKey) : TreeM (TKey × Bool) := s.extremeKey .maxKey (·.right) key

/-- The pointer that held `u` now holds `v`. -/
def relink (s : CBinarySearchTree) (u v : Option Nat) : TreeM CBinarySearchTree := do
  let un ← s.deref .transplant u
  match un.parent with
  | none => pure { s with m_pRoot := v }
  | some q => do
    let qn ← s.deref .transplant (some q)
    if u = qn.left then s.write .transplant (some q) fun n => { n with left := v }
    else s.write .transplant (some q) fun n => { n with right := v }

/-- Replace the subtree at `u` by the subtree at `v`. -/
def transplant (s : CBinarySearchTree) (u v : Option Nat) : TreeM CBinarySearchTree := do
  let s ← s.relink u v
  match v with
  | none => pure s
  | some _ => do
    let un ← s.deref .transplant u
    s.write .transplant v fun n => { n with parent := un.parent }

/-- `y->right = x->right; y->right->parent = y`. -/
def adoptRight (s : CBinarySearchTree) (x y : Option Nat) : TreeM CBinarySearchTree := do
  let xn ← s.deref .deleteNode x
  let s ← s.write .deleteNode y fun n => { n with right := xn.right }
  let yn ← s.deref .deleteNode y
  s.write .deleteNode yn.right fun n => { n with parent := y }

/-- `y->left = x->left; y->left->parent = y`. -/
def adoptLeft (s : CBinarySearchTree) (x y : Option Nat) : TreeM CBinarySearchTree := do
  let xn ← s.deref .deleteNode x
  let s ← s.write .deleteNode y fun n => { n with left := xn.left }
  let yn ← s.deref .deleteNode y
  s.write .deleteNode yn.left fun n => { n with parent := y }

/-- Take the successor out of the place where it is, unless it is the right child. -/
def detachSuccessor (s : CBinarySearchTree) (x y : Option Nat) : TreeM CBinarySearchTree := do
  let yn ← s.deref .deleteNode y
  if yn.parent ≠ x then do
    let s ← s.transplant y yn.right
    s.adoptRight x y
  else pure s

/-- The node leaves the tree. It is not released and not counted down. -/
def deleteNode (s : CBinarySearchTree) (key : TKey) : TreeM CBinarySearchTree := do
  match ← s.search key with
  | none => pure s
  | some x => do
    let xn ← s.deref .deleteNode (some x)
    if xn.left = none then s.transplant (some x) xn.right
    else if xn.right = none then s.transplant (some x) xn.left
    else do
      let y ← s.treeSuccessor key
      let s ← s.detachSuccessor (some x) y
      let s ← s.transplant (some x) y
      s.adoptLeft (some x) y

/-- Build a node. No `return` follows, so the caller gets as the result what the
place of the return value happens to hold: `ret`. -/
def createNode (s : CBinarySearchTree) (key : TKey) (ret : Option Nat) : CBinarySearchTree × Option Nat :=
  ({ s with nodes := s.nodes ++ [⟨key,none,none,none⟩] },ret)

/-- The loop of `insert`, both branches of which go left. -/
def insertLoop (s : CBinarySearchTree) (key : TKey) : Nat → Option Nat → Option Nat → TreeM (Option Nat)
  | _, none, pParent => pure pParent
  | 0, some _, _ => .fail .diverges .insert
  | n+1, some pTmp, _ => do
    let tmp ← s.deref .insert (some pTmp)
    if key < tmp.key then insertLoop s key n tmp.left (some pTmp)
    else insertLoop s key n tmp.left (some pTmp)

/-- Hang a node below `pParent`, over what was there. -/
def hang (s : CBinarySearchTree) (pNode : Option Nat) (key : TKey) (pParent : Nat) : TreeM CBinarySearchTree := do
  let parent ← s.deref .insert (some pParent)
  let s ← if parent.key < key then s.write .insert (some pParent) fun n => { n with left := pNode }
    else s.write .insert (some pParent) fun n => { n with right := pNode }
  s.write .insert pNode fun n => { n with parent := some pParent }

def insert (s : CBinarySearchTree) (pNode : Option Nat) : TreeM (CBinarySearchTree × Bool) :=
  match s.m_pRoot with
  | none => pure ({ s with m_pRoot := pNode, m_nLen := wrap32 (s.m_nLen + 1) },true)
  | some _ => do
    let node ← s.deref .insert pNode
    match ← s.insertLoop node.key s.nodes.length s.m_pRoot none with
    | none => pure (s,true)
    | some pParent => do
      let s ← s.hang pNode node.key pParent
      pure (s,true)

def insertNode (s : CBinarySearchTree) (key : TKey) (ret : Option Nat) : TreeM (CBinarySearchTree × Bool) :=
  match s.createNode key ret with
  | (s,none) => pure (s,false)
  | (s,some pNode) => s.insert (some pNode)

/-- The recursive walk, in preorder. It comes back to a node on its way down, and
so never ends, when it is deeper than there are nodes. -/
def walk (s : CBinarySearchTree) : Nat → Option Nat → List (Option TKey) → Nat → TreeM (List (Option TKey) × Nat)
  | _, none, pOut, nPos => pure (pOut,nPos)
  | 0, some _, _, _ => .fail .diverges .inorderTreeWalk
  | n+1, some p, pOut, nPos => do
    let pNode ← s.deref .inorderTreeWalk (some p)
    if nPos < pOut.length then do
      let (pOut,nPos) ← walk s n pNode.left (pOut.set nPos (some pNode.key)) (nPos + 1)
      walk s n pNode.right pOut nPos
    else .fail .outOfBounds .inorderTreeWalk

/-- Copy the keys to a new array of `m_nLen` entries, in place of the array the
caller passes. An empty tree leaves both arguments alone. -/
def inorderTreeWalk (s : CBinarySearchTree) (pOut : Option (List (Option TKey))) (nLen : Int) :
    TreeM (Option (List (Option TKey)) × Int) :=
  match s.m_pRoot with
  | none => pure (pOut,nLen)
  | some p => do
    if pOut.isSome then Act.emit .deleteArray
    if s.m_nLen < 0 then .fail .outOfMemory .inorderTreeWalk
    else do
      let (out,_) ← s.walk s.nodes.length (some p) (List.replicate s.m_nLen.toNat none) 0
      pure (some out,s.m_nLen)

end CBinarySearchTree

/-- The calls of a history. An insertion carries what `createNode` leaves as its
result. -/
inductive Call where
  | insertNode (key : TKey) (ret : Option Nat)
  | deleteNode (key : TKey)
  deriving DecidableEq, Repr

def treeStep (s : CBinarySearchTree) : Call → TreeM CBinarySearchTree
  | .insertNode key ret => do
    let (s,_) ← s.insertNode key ret
    pure s
  | .deleteNode key => s.deleteNode key

end MyProgram.SearchTree
