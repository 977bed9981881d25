import Mathlib.Data.List.ReduceOption
import Mathlib.Tactic.TypeStar

/-!
# Logging.LogToNetwork — log items on their way to the manager

Items wait in `itemQueue`.  A flush that finds the connection up moves them to `sendBuffer` and sends that as
a block; the buffer is emptied when the manager answers `CMD_OK`.  So nothing is lost while the output exists
(`items_run`).  But a flush, and the destructor, look at the queue only: a block that was not acknowledged is
sent again when there are new items, and not before.
-/

namespace Redux.Logging

/-! ## Model -/

/-- A `LogToNetwork`: the items are pointers.  `acknowledged` are the items of all blocks that were answered with
`CMD_OK`, in the order in which they were sent. -/
structure LogToNetwork (ι : Type*) where
  flushPeriod : BitVec 32
  itemQueue : List (Option ι)
  itemCount : BitVec 32
  sendBuffer : List ι
  acknowledged : List ι

/-- What a flush meets with: whether the connection is up after `connect()`, and whether the block is answered
with `CMD_OK`; an exception or any other answer is none. -/
structure Link where
  up : Bool
  ok : Bool

/-- A connection that works. -/
def Link.works : Link := ⟨true, true⟩

/-- The calls of the users of an output. -/
inductive Call (ι : Type*)
  | addItem (item : Option ι)
  | addItems (items : List (Option ι))
  | flushBuffer

namespace LogToNetwork

variable {ι : Type*}

/-- The items of the queue are put behind those that are to be sent. -/
def collect (o : LogToNetwork ι) : LogToNetwork ι :=
  { o with itemQueue := [], itemCount := 0, sendBuffer := o.sendBuffer ++ o.itemQueue.reduceOption }

/-- The block of all items that are to be sent, and the answer. -/
def transfer (link : Link) (o : LogToNetwork ι) : LogToNetwork ι :=
  if link.ok then { o with sendBuffer := [], acknowledged := o.acknowledged ++ o.sendBuffer } else o

/-- Whether a flush gets as far as sending a block. -/
def sends (link : Link) (o : LogToNetwork ι) : Bool := link.up && !o.itemQueue.isEmpty

/-- `flushBuffer()`. -/
def flushBuffer (link : Link) (o : LogToNetwork ι) : LogToNetwork ι :=
  if !link.up then o
  else if o.itemQueue.isEmpty then o
  else transfer link (collect o)

/-- More items in the queue, and their number. -/
def enqueue (items : List (Option ι)) (o : LogToNetwork ι) : LogToNetwork ι :=
  { o with itemQueue := o.itemQueue ++ items, itemCount := BitVec.ofNat 32 (o.itemQueue ++ items).length }

def addItem (link : Link) (item : Option ι) (o : LogToNetwork ι) : LogToNetwork ι :=
  if o.flushPeriod ≤ (enqueue [item] o).itemCount then flushBuffer link (enqueue [item] o) else enqueue [item] o

def addItems (link : Link) (items : List (Option ι)) (o : LogToNetwork ι) : LogToNetwork ι :=
  if items.isEmpty then o
  else if o.flushPeriod = 0 ∨ o.flushPeriod < (enqueue items o).itemCount then flushBuffer link (enqueue items o)
  else enqueue items o

/-- A call, with what a flush in it meets with. -/
def step (o : LogToNetwork ι) : Call ι × Link → LogToNetwork ι
  | (.addItem item, link) => addItem link item o
  | (.addItems items, link) => addItems link items o
  | (.flushBuffer, link) => flushBuffer link o

/-- A new output. -/
def new (flushPeriod : BitVec 32) : LogToNetwork ι := ⟨flushPeriod, [], 0, [], []⟩

/-- A new output after some calls. -/
def run (flushPeriod : BitVec 32) (calls : List (Call ι × Link)) : LogToNetwork ι := calls.foldl step (new flushPeriod)

/-- `~LogToNetwork()`: what is in the buffers afterwards goes with them. -/
def destroy (link : Link) (o : LogToNetwork ι) : LogToNetwork ι :=
  if !o.itemQueue.isEmpty then flushBuffer link o else o

/-- The items that are in the buffers. -/
def unsent (o : LogToNetwork ι) : List ι := o.sendBuffer ++ o.itemQueue.reduceOption

/-- Every item of an output. -/
def items (o : LogToNetwork ι) : List ι := o.acknowledged ++ o.unsent

end LogToNetwork

/-- The items that a call adds: null pointers are none. -/
def Call.added {ι : Type*} : Call ι → List ι
  | .addItem item => [item].reduceOption
  | .addItems items => items.reduceOption
  | .flushBuffer => []

/-- The items that some calls add. -/
def added {ι : Type*} (calls : List (Call ι × Link)) : List ι := calls.flatMap fun c => c.1.added

/-- **No item is lost**, of those that were added: each is acknowledged or in a buffer, as often and in the order as
it was added, a flush whose block is acknowledged leaves none behind, and neither does the destructor while the
connection works. -/
structure LogToNetwork.NothingLost {ι : Type*} (items : List ι) (o : LogToNetwork ι) : Prop where
  kept : o.items = items
  flushed : ∀ link, o.sends link → link.ok → (o.flushBuffer link).unsent = []
  destroyed : (o.destroy .works).unsent = []

/-! ## One call -/

namespace LogToNetwork

variable {ι : Type*} {o : LogToNetwork ι} {link : Link}

theorem items_collect : o.collect.items = o.items := by
  rw [items, unsent, collect, List.reduceOption_nil, List.append_nil]
  rfl

theorem items_transfer (h : o.itemQueue = []) : (o.transfer link).items = o.items := by
  rw [transfer]
  split
  · rw [items, unsent, items, unsent, h, List.reduceOption_nil, List.append_nil, List.append_nil, List.append_nil]
  · rfl

theorem items_flushBuffer : (o.flushBuffer link).items = o.items := by
  rw [flushBuffer]
  split
  · rfl
  · split
    · rfl
    · rw [items_transfer rfl, items_collect]

theorem items_enqueue (l : List (Option ι)) : (o.enqueue l).items = o.items ++ l.reduceOption := by
  rw [items, unsent, enqueue, List.reduceOption_append, ← List.append_assoc, ← List.append_assoc, items, unsent,
    List.append_assoc o.acknowledged]

theorem items_addItem (item : Option ι) : (o.addItem link item).items = o.items ++ [item].reduceOption := by
  rw [addItem]
  split
  · rw [items_flushBuffer, items_enqueue]
  · exact items_enqueue _

theorem items_addItems (l : List (Option ι)) : (o.addItems link l).items = o.items ++ l.reduceOption := by
  rw [addItems]
  split
  next hempty => rw [List.isEmpty_iff.1 hempty, List.reduceOption_nil, List.append_nil]
  next =>
    split
    · rw [items_flushBuffer, items_enqueue]
    · exact items_enqueue l

/-- **A call adds its items at the end**, whatever the connection does. -/
theorem items_step (c : Call ι × Link) : (o.step c).items = o.items ++ c.1.added := by
  obtain ⟨call, link⟩ := c
  cases call with
  | addItem item => exact items_addItem item
  | addItems l => exact items_addItems l
  | flushBuffer => exact items_flushBuffer.trans (List.append_nil _).symm

/-! ## Runs -/

/-- **What was added is, in this order, what is acknowledged, what is to be sent and what waits.** -/
theorem items_run (flushPeriod : BitVec 32) (calls : List (Call ι × Link)) :
    (run flushPeriod calls).items = added calls := by
  have hfold : ∀ (calls : List (Call ι × Link)) (o : LogToNetwork ι),
      (calls.foldl step o).items = o.items ++ added calls := by
    intro calls
    induction calls with
    | nil => exact fun o => (List.append_nil _).symm
    | cons c calls ih =>
      intro o
      rw [List.foldl_cons, ih, items_step, added, added, List.flatMap_cons, List.append_assoc]
  exact (hfold calls (new flushPeriod)).trans (List.nil_append _)

/-- **A block that is acknowledged has everything that there was.** -/
theorem unsent_flushBuffer (hsends : o.sends link) (hok : link.ok) : (o.flushBuffer link).unsent = [] := by
  rw [sends, Bool.and_eq_true, Bool.not_eq_true'] at hsends
  rw [flushBuffer, hsends.1, hsends.2, Bool.not_true, if_neg Bool.false_ne_true, if_neg Bool.false_ne_true, transfer,
    if_pos hok]
  rfl

/-- **The destructor delivers everything exactly if there is nothing that was sent before, or something new.** -/
theorem unsent_destroy_iff : (o.destroy .works).unsent = [] ↔ o.sendBuffer = [] ∨ o.itemQueue ≠ [] := by
  rw [destroy]
  cases hempty : o.itemQueue.isEmpty with
  | true =>
    have hqueue : o.itemQueue = [] := List.isEmpty_iff.1 hempty
    rw [Bool.not_true, if_neg Bool.false_ne_true, unsent, hqueue, List.reduceOption_nil, List.append_nil]
    exact (or_iff_left fun h => h rfl).symm
  | false =>
    rw [Bool.not_false, if_pos rfl]
    refine iff_of_true (unsent_flushBuffer ?_ rfl) (Or.inr fun h => ?_)
    · rw [sends, hempty]
      rfl
    · rw [h] at hempty
      exact Bool.noConfusion hempty

/-- **After any calls, no item is lost exactly if the last block was acknowledged or there are new items.** -/
theorem nothingLost_iff (flushPeriod : BitVec 32) (calls : List (Call ι × Link)) :
    (run flushPeriod calls).NothingLost (added calls) ↔
      (run flushPeriod calls).sendBuffer = [] ∨ (run flushPeriod calls).itemQueue ≠ [] :=
  ⟨fun h => unsent_destroy_iff.1 h.destroyed, fun h =>
    ⟨items_run flushPeriod calls, fun _ => unsent_flushBuffer, unsent_destroy_iff.2 h⟩⟩

/-- One item, the acknowledgement of which does not come. -/
theorem unacknowledged_lost :
    ¬(run 1 [(.addItem (some ()), ⟨true, false⟩)]).NothingLost (added [(.addItem (some ()), ⟨true, false⟩)]) := by
  intro h
  exact absurd h.destroyed (by decide)

end LogToNetwork

end Redux.Logging
