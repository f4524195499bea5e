import QuilNode.Basic
import QuilNode.Lib.Run

/-!
# The tree of frames (`quil-engine/src/time_reel.rs`)

`GlobalTimeReel` keeps the frames a node has seen as a tree and picks its head.  A frame without
its predecessor is kept as pending, and stored as an orphan of depth one if it is ahead of the
head; when the predecessor comes, `process_pending` hangs the pending frames under it, and theirs
under them.

Ids and selectors are hashes without collisions.  The order in which a map is visited and the
clock are parameters of each insertion, the scores of branches of the tree.
-/

namespace TimeReel

def maxTreeDepth : Nat := 10
def pendingFrameMaxAgeMs : Int := 90 * 60 * 1000
def scale : Nat := 2 ^ 64 - 1

/-- The fields of a frame's header that the tree reads. -/
structure Header where
  frameNumber : Nat
  timestamp : Int
  difficulty : Nat
  output : Bytes
  parentSelector : Bytes
  bitmask : Option Bytes
  deriving DecidableEq

structure FrameId where
  frameNumber : Nat
  timestamp : Int
  output : Bytes
  parentSelector : Bytes
  deriving DecidableEq

def computeFrameId (h : Header) : FrameId := ⟨h.frameNumber, h.timestamp, h.output, h.parentSelector⟩

structure FrameNode where
  frame : Header
  parent : Option FrameId
  children : List FrameId
  depth : Nat
  deriving DecidableEq

def FrameNode.id (n : FrameNode) : FrameId := computeFrameId n.frame

def FrameNode.withChild (n : FrameNode) (child : FrameId) : FrameNode :=
  { n with children := if child ∈ n.children then n.children else n.children ++ [child] }

/-- What a branch is scored by; the distance of its frames is always zero. -/
structure BranchFrame where
  seniority : Nat
  proverAddress : Bytes

structure ReelEnv where
  computePoseidonSelector : Bytes → Bytes
  selector_injective : Function.Injective computePoseidonSelector
  genesisFrameNumber : Nat
  forkChoice : List (List BranchFrame) → Nat → Nat

/-- The order in which the node map is visited. -/
structure IterOrder where
  arrange : List FrameNode → List FrameNode
  perm : ∀ nodes, (arrange nodes).Perm nodes

theorem IterOrder.mem (order : IterOrder) {nodes : List FrameNode} {n : FrameNode} :
    n ∈ order.arrange nodes ↔ n ∈ nodes := (order.perm nodes).mem_iff

structure Reel where
  root : Option FrameId
  head : Option FrameId
  nodes : List FrameNode
  pendingFrames : List Header
  equivocators : List (Nat × Nat)
  deriving DecidableEq

namespace Reel

def empty : Reel := ⟨none, none, [], [], []⟩

def get (s : Reel) (id : FrameId) : Option FrameNode := s.nodes.find? fun n => n.id = id

def depthOf (s : Reel) (id : FrameId) : Nat := ((s.get id).map FrameNode.depth).getD 0

def frameNumberOf (s : Reel) (id : FrameId) : Nat :=
  ((s.get id).map fun n => n.frame.frameNumber).getD 0

def add (s : Reel) (n : FrameNode) : Reel := { s with nodes := s.nodes ++ [n] }

def modify (s : Reel) (id : FrameId) (f : FrameNode → FrameNode) : Reel :=
  { s with nodes := s.nodes.map fun n => if n.id = id then f n else n }

def addChild (s : Reel) (parent child : FrameId) : Reel :=
  s.modify parent fun p => p.withChild child

/-- The positions of the bits that both masks have. -/
def overlappingBits (a b : Bytes) : List Nat :=
  (List.range (max a.length b.length)).flatMap fun i =>
    ((List.range 8).filter fun bit => (a.getD i 0 &&& b.getD i 0).toNat.testBit bit).map (i * 8 + ·)

def hasOverlappingBits (a b : Header) : Bool :=
  (List.range (max (a.bitmask.getD []).length (b.bitmask.getD []).length)).any fun i =>
    (a.bitmask.getD []).getD i 0 &&& (b.bitmask.getD []).getD i 0 != 0

def isEqualFrame (a b : Header) : Bool :=
  a.frameNumber == b.frameNumber && a.timestamp == b.timestamp && a.difficulty == b.difficulty &&
    a.output == b.output && a.parentSelector == b.parentSelector

/-- Note the signers of another frame with the same number. -/
def detectEquivocation (s : Reel) (frame : Header) : Reel :=
  { s with equivocators := s.equivocators ++
      (s.nodes.filter fun n => n.frame.frameNumber == frame.frameNumber &&
        !isEqualFrame n.frame frame && hasOverlappingBits n.frame frame).flatMap fun n =>
          (overlappingBits (n.frame.bitmask.getD []) (frame.bitmask.getD [])).map (frame.frameNumber, ·) }

/-- `find_root`; a path without a cycle has at most as many nodes as are stored. -/
def findRootFrom (s : Reel) : Nat → FrameId → Option FrameId
  | 0, _ => none
  | fuel + 1, id =>
    match s.get id with
    | none => none
    | some n =>
      match n.parent with
      | some pid => findRootFrom s fuel pid
      | none => some id

def findRoot (s : Reel) (id : FrameId) : Option FrameId := s.findRootFrom (s.nodes.length + 1) id

/-- The leaves in the component of the head. -/
def findLeafNodes (order : IterOrder) (s : Reel) (headId : FrameId) : List FrameNode :=
  (order.arrange s.nodes).filter fun n => n.children.isEmpty && s.findRoot n.id == s.findRoot headId

def computeFrameSeniority (s : Reel) (frame : Header) : Nat :=
  match frame.bitmask with
  | none => scale / 64
  | some mask =>
    let bitCount := ((overlappingBits mask mask).filter fun bit =>
      !s.equivocators.contains (frame.frameNumber, bit)).length
    if bitCount = 0 then 0 else scale / 64 * bitCount % 2 ^ 64

/-- The nodes from one upwards. -/
def lineage (s : Reel) : Nat → FrameId → List FrameNode
  | 0, _ => []
  | fuel + 1, id =>
    match s.get id with
    | none => []
    | some n =>
      match n.parent with
      | some pid => n :: lineage s fuel pid
      | none => [n]

def nodeToBranch (s : Reel) (leaf : FrameId) : List BranchFrame :=
  (s.lineage maxTreeDepth leaf).reverse.map fun n =>
    ⟨s.computeFrameSeniority n.frame, n.frame.output.take 32⟩

/-- The head that `evaluate_fork_choice` leaves. -/
def chooseHead (env : ReelEnv) (order : IterOrder) (s : Reel) (new : FrameId) : FrameId :=
  match s.head with
  | none => new
  | some headId =>
    if s.frameNumberOf headId < s.frameNumberOf new ∧
        maxTreeDepth < s.frameNumberOf new - s.frameNumberOf headId then new
    else
      let leaves := s.findLeafNodes order headId
      if leaves.length ≤ 1 then
        if s.depthOf headId < s.depthOf new then new else headId
      else
        let maxDepth := ((leaves.map FrameNode.depth).max?).getD 0
        let competing := leaves.filter fun n => n.depth = maxDepth
        match competing with
        | [chosen] => chosen.id
        | competing =>
          let branches := competing.map fun n => s.nodeToBranch n.id
          let prevChoice := (competing.findIdx? fun n => n.id = headId).getD 0
          ((competing[env.forkChoice branches prevChoice]?).map FrameNode.id).getD headId

def evaluateForkChoice (env : ReelEnv) (order : IterOrder) (s : Reel) (new : FrameId) : Reel :=
  { s with head := some (s.chooseHead env order new) }

/-- Hang a stored orphan under its parent. -/
def reparent (s : Reel) (parent : FrameId) (depth : Nat) (id : FrameId) : Reel :=
  (s.modify id fun n => { n with parent := some parent, depth := depth + 1 }).addChild parent id

/-- Store a frame under its parent. -/
def adopt (s : Reel) (parent : FrameId) (depth : Nat) (frame : Header) : Reel :=
  (s.add ⟨frame, some parent, [], depth + 1⟩).addChild parent (computeFrameId frame)

/-- One pending frame of a parent; `recur` processes what is pending below it. -/
def connect (env : ReelEnv) (order : IterOrder) (recur : Reel → FrameId → Reel) (parent : FrameId)
    (depth : Nat) (s : Reel) (frame : Header) : Reel :=
  let id := computeFrameId frame
  match s.get id with
  | some existing =>
    if existing.parent = none then
      (recur (s.reparent parent depth id) id).evaluateForkChoice env order id
    else s
  | none => (recur (s.adopt parent depth frame) id).evaluateForkChoice env order id

/-- `process_pending`; a call takes its pending frames off the list, so the calls nest no deeper
than it is long. -/
def processPendingFrom (env : ReelEnv) (order : IterOrder) : Nat → Reel → FrameId → Reel
  | 0, s, _ => s
  | fuel + 1, s, parent =>
    match s.get parent with
    | none => s
    | some n =>
      let selector := env.computePoseidonSelector n.frame.output
      let waiting := s.pendingFrames.filter fun p => p.parentSelector = selector
      let rest := s.pendingFrames.filter fun p => p.parentSelector ≠ selector
      waiting.foldl (connect env order (processPendingFrom env order fuel) parent n.depth)
        { s with pendingFrames := rest }

def processPending (env : ReelEnv) (order : IterOrder) (s : Reel) (parent : FrameId) : Reel :=
  processPendingFrom env order (s.pendingFrames.length + 1) s parent

/-- Remove a node and cut off its children. -/
def removeNode (s : Reel) (removed : FrameNode) : Reel :=
  { s with
    nodes := (s.nodes.filter fun n => n.id ≠ removed.id).map fun n =>
      if n.id ∈ removed.children then { n with parent := none } else n
    equivocators := s.equivocators.filter fun e => e.1 ≠ removed.frame.frameNumber }

/-- The node with the lowest frame number, the first of them. -/
def lowest (nodes : List FrameNode) : Option FrameNode :=
  nodes.foldl (fun best n =>
    match best with
    | none => some n
    | some b => if n.frame.frameNumber < b.frame.frameNumber then some n else some b) none

def pruneOldFrames (order : IterOrder) (s : Reel) : Reel :=
  match s.head.bind s.get with
  | none => s
  | some head =>
    if head.depth < maxTreeDepth then s
    else
      let minDepthToKeep := head.depth - maxTreeDepth + 1
      let toRemove := (order.arrange s.nodes).filter fun n => n.depth < minDepthToKeep
      if toRemove = [] then s
      else
        let pruned := toRemove.foldl removeNode s
        match lowest ((order.arrange pruned.nodes).filter fun n => n.depth = minDepthToKeep) with
        | some n => { pruned with root := some n.id }
        | none => pruned

def pruneOldPending (now : Int) (s : Reel) : Reel :=
  { s with pendingFrames := s.pendingFrames.filter fun p => now - pendingFrameMaxAgeMs ≤ p.timestamp }

def findNodeBySelector (env : ReelEnv) (order : IterOrder) (s : Reel) (selector : Bytes) :
    Option FrameNode :=
  (order.arrange s.nodes).find? fun n => env.computePoseidonSelector n.frame.output = selector

def insertGenesis (env : ReelEnv) (order : IterOrder) (s : Reel) (frame : Header) :
    Except String Unit × Reel :=
  if s.root.isSome then (.error "genesis/root already exists", s)
  else
    let id := computeFrameId frame
    let s := { s.add ⟨frame, none, [], 0⟩ with root := some id, head := some id }
    (.ok (), (s.processPending env order id).pruneOldFrames order)

/-- A frame with a stored predecessor. -/
def insertChild (env : ReelEnv) (order : IterOrder) (now : Int) (s : Reel) (parent : FrameNode)
    (frame : Header) : Reel :=
  let id := computeFrameId frame
  let s := s.adopt parent.id parent.depth frame
  (((s.processPending env order id).evaluateForkChoice env order id).pruneOldFrames order).pruneOldPending
    now

/-- A frame without a stored predecessor: pending, and an orphan if it is ahead of the head. -/
def insertPending (env : ReelEnv) (order : IterOrder) (s : Reel) (frame : Header) : Reel :=
  let headFrameNumber := ((s.head.bind s.get).map fun n => n.frame.frameNumber).getD 0
  let waiting := { s with pendingFrames := s.pendingFrames ++ [frame] }
  if s.head.isSome ∧ headFrameNumber < frame.frameNumber then
    (waiting.add ⟨frame, none, [], 1⟩).evaluateForkChoice env order (computeFrameId frame)
  else waiting

/-- A call of `insert`, with the clock and the order of the map at that time. -/
structure Arrival where
  frame : Option Header
  now : Int
  order : IterOrder

def insert (env : ReelEnv) (s : Reel) (a : Arrival) : Except String Unit × Reel :=
  match a.frame with
  | none => (.error "frame has no header", s)
  | some frame =>
    if (s.get (computeFrameId frame)).isSome then (.ok (), s)
    else
      let s := s.detectEquivocation frame
      if frame.frameNumber = env.genesisFrameNumber then s.insertGenesis env a.order frame
      else if s.root = none ∧ s.nodes = [] then s.insertGenesis env a.order frame
      else
        match s.findNodeBySelector env a.order frame.parentSelector with
        | some parent =>
          if env.computePoseidonSelector parent.frame.output ≠ frame.parentSelector then
            (.error "parent selector mismatch", s)
          else (.ok (), s.insertChild env a.order a.now parent frame)
        | none => (.ok (), s.insertPending env a.order frame)

end Reel

end TimeReel
