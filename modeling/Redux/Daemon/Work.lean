import Redux.Lib.Custody
import Redux.Momfbd.Job

/-!
# Daemon.Work — patches on their way between the manager and its hosts

The part of `Daemon` that hands the patches of one running `MomfbdJob` to hosts and takes results
back.  A `WorkInProgress` of this job carries one patch; it is `some p` while it refers to the job and
holds patch `p`, and `none` after `reset()` or `failedWIP`.  The global data, which goes along with the
first patch of a job, has no step that matters and is left out.

Each action is one atomic step: a call that holds its lock, or one of the calls that a posted handler
or `cleanup()` makes.  A host waits for no more than the reply to a command; a command or a reply can be
lost with its connection.  A host that connects anew is the same `Host` to the manager, and what it sent
before can still be read: every connection has a thread of its own.
-/

namespace Redux

open Momfbd

/-- A command from a host to the manager, in flight: `CMD_GET_WORK`, or `CMD_PUT_PARTS` with the result
of a patch. -/
inductive Command where
  | getWork
  | putParts (patch : ℕ)
  deriving DecidableEq, Repr

/-- A worker: the patch in its WIP, its connection, and the commands it sent on each of its connections
that the manager has not read yet. -/
structure Host where
  work : Option ℕ
  conn : ℕ
  sent : ℕ → List Command

/-- How far the handler that `putParts` posts has come: it holds copies of the WIP, then the unpacked
result of `patch`, then only the copies, which it puts back. -/
inductive Handler where
  | copied (wip_bak : Option ℕ) (patch : ℕ)
  | unpacked (wip_bak : ℕ) (patch : ℕ)
  | returned (wip_bak : ℕ)
  deriving DecidableEq, Repr

/-- `Daemon`, as manager of one job.  `wips` are the WIP objects registered for hosts, by address;
`peerWIP` has their addresses, as have the posted handlers that did not start and the list of
`cleanup()`.  `preparing` and `wip_queue` are WIPs too; `wip_active` has at most one entry, since all
WIPs of a job are equivalent.  `results` lists the patches `returnResults` was called for. -/
structure Daemon where
  job : Job
  preparing : List ℕ
  wip_queue : List ℕ
  wips : List (Option ℕ)
  peerWIP : ℕ → Option ℕ
  wip_active : Option (Option ℕ)
  posted : List (ℕ × ℕ)
  handlers : List Handler
  timedOutWIPs : List ℕ
  hosts : ℕ → Host
  results : List ℕ

/-- A command is sent on the connection of the host. -/
def Host.send (host : Host) (cmd : Command) : Host :=
  { host with sent := Function.update host.sent host.conn (host.sent host.conn ++ [cmd]) }

/-- The handler's copies refer to patch `i`. -/
def Handler.refersTo (i : ℕ) : Handler → Bool
  | .copied wip_bak _ => wip_bak == some i
  | .unpacked wip_bak _ => wip_bak == i
  | .returned wip_bak => wip_bak == i

namespace Daemon

variable (s : Daemon)

/-! ## References -/

/-- How many WIPs refer to patch `i`, besides the entry of `wip_active`. -/
def references (i : ℕ) : ℕ :=
  s.preparing.countP (· == i) + s.wip_queue.countP (· == i) + s.wips.countP (· == some i) +
    s.handlers.countP (Handler.refersTo i)

/-- `use_count() == 1`: only the job itself refers to patch `i`. -/
def unreferenced (i : ℕ) : Bool := s.references i == 0 && s.wip_active != some (some i)

/-- A posted handler or the list of `cleanup()` has a pointer to this WIP. -/
def inHand (w : ℕ) : Bool := s.posted.any (·.1 == w) || s.timedOutWIPs.contains w

/-- `getWIP( host )`: the WIP registered for the host, an empty one if there is none. -/
def getWIP (h : ℕ) : Daemon × ℕ :=
  match s.peerWIP h with
  | some w => (s, w)
  | none =>
    ({ s with wips := s.wips ++ [none], peerWIP := Function.update s.peerWIP h (some s.wips.length) },
      s.wips.length)

/-- The WIPs when the host's entry of `peerWIP` is given up: its WIP is destroyed if nothing else
points to it. -/
def dropWIP (h : ℕ) : List (Option ℕ) :=
  match s.peerWIP h with
  | some w => if s.inHand w then s.wips else s.wips.set w none
  | none => s.wips

/-- `updateWIP( host, wip )` with a new WIP that holds patch `p`. -/
def updateWIP (h p : ℕ) : Daemon :=
  { s with
    wips := s.dropWIP h ++ [some p]
    peerWIP := Function.update s.peerWIP h (some s.wips.length) }

/-! ## The steps -/

/-- `prepareRemoteWork`: the job is asked for work, and a thread started for what it gives. -/
def prepareRemoteWork (locked full : Bool) : Daemon :=
  let r := s.job.getWorkRemote locked full
  { s with job := r.1, preparing := r.2.toList ++ s.preparing }

/-- The thread has loaded the patch of its WIP. -/
def prepared (k : ℕ) : Option Daemon :=
  s.preparing[k]?.map fun p =>
    { s with preparing := s.preparing.eraseIdx k, wip_queue := s.wip_queue ++ [p] }

/-- The thread could not load it. -/
def prepareFailed (k : ℕ) : Option Daemon :=
  s.preparing[k]?.map fun p =>
    { s with preparing := s.preparing.eraseIdx k, job := s.job.ungetWork [p] }

/-- What a host does. -/
def setHost (h : ℕ) (host : Host) : Daemon := { s with hosts := Function.update s.hosts h host }

/-- A host connects anew: `Daemon::getMaster`. -/
def reconnect (h : ℕ) : Daemon := s.setHost h { s.hosts h with conn := (s.hosts h).conn + 1 }

/-- A host drops what it has and asks for work. -/
def askWork (h : ℕ) : Daemon := s.setHost h { (s.hosts h).send .getWork with work := none }

/-- A host sends the result of its patch, for the first time or again. -/
def sendResult (h : ℕ) : Option Daemon :=
  (s.hosts h).work.map fun p => s.setHost h ((s.hosts h).send (.putParts p))

/-- The first command on a connection of a host is read, and `rest` left on the way. -/
def readCommand (h c : ℕ) (rest : List Command) : Daemon :=
  s.setHost h { s.hosts h with sent := Function.update (s.hosts h).sent c rest }

/-- A command is lost with its connection. -/
def lose (h c : ℕ) : Daemon := s.readCommand h c ((s.hosts h).sent c).tail

/-- `sendWork`: `slot` is whether it got a transfer slot, `arrives` whether the reply reaches a host
that still waits for it, on this connection. -/
def sendWork (h c : ℕ) (slot arrives : Bool) : Option Daemon :=
  match (s.hosts h).sent c with
  | .getWork :: rest =>
    match slot, s.wip_queue with
    | true, p :: queue =>
      let t := (s.readCommand h c rest).updateWIP h p
      let work := if arrives ∧ c = (s.hosts h).conn ∧ rest = [] then some p else (s.hosts h).work
      some { t.setHost h { t.hosts h with work } with
        wip_queue := queue
        wip_active := some (s.wip_active.getD (some p)) }
    | _, _ => some (s.readCommand h c rest)
  | _ => none

/-- `putParts`: the result is received and a handler posted for the WIP that the host has by then. -/
def putParts (h c : ℕ) : Option Daemon :=
  match (s.hosts h).sent c with
  | .putParts p :: rest =>
    let r := (s.readCommand h c rest).getWIP h
    some { r.1 with posted := r.1.posted ++ [(r.2, p)] }
  | _ => none

/-- A handler starts: it copies the WIP twice and resets it. -/
def copyReset (k : ℕ) : Option Daemon :=
  s.posted[k]?.bind fun r =>
    s.wips[r.1]?.map fun wip =>
      { s with
        posted := s.posted.eraseIdx k
        wips := s.wips.set r.1 none
        handlers := s.handlers ++ [.copied wip r.2] }

/-- A handler ends with an exception: `failedWIP( wip_bak )`. -/
def handlerFails (k : ℕ) (wip_bak : Option ℕ) : Daemon :=
  { s with
    handlers := s.handlers.eraseIdx k
    job := match wip_bak with
      | some p => s.job.failWork [p]
      | none => s.job }

/-- `unpackWork`, which throws without a job, or (not `ok`) when it cannot unpack the result. -/
def unpackWork (k : ℕ) (ok : Bool) : Option Daemon :=
  match s.handlers[k]? with
  | some (.copied (some p) patch) =>
    if ok then some { s with handlers := s.handlers.set k (.unpacked p patch) }
    else some (s.handlerFails k (some p))
  | some (.copied none _) => some (s.handlerFails k none)
  | _ => none

/-- `returnResults`, which throws (not `ok`) when the result cannot be copied. -/
def returnResults (k : ℕ) (ok : Bool) : Option Daemon :=
  match s.handlers[k]? with
  | some (.unpacked p patch) =>
    if ok then some { s with
      handlers := s.handlers.set k (.returned p)
      job := s.job.returnResult patch
      results := s.results ++ [patch] }
    else some (s.handlerFails k (some p))
  | _ => none

/-- `returnWork` and the end of the handler: the active entry of the job is erased. -/
def returnWork (k : ℕ) : Option Daemon :=
  match s.handlers[k]? with
  | some (.returned _) => some { s with handlers := s.handlers.eraseIdx k, wip_active := none }
  | _ => none

/-- `returnWork` of the manager's own worker, for a local WIP of the job. -/
def returnLocal : Daemon := { s with wip_active := none }

/-- `cleanup` finds that the work of a host timed out, or that its WIP has no job: the entry is erased,
and work that timed out put on the list. -/
def cleanupWIP (h : ℕ) : Option Daemon :=
  (s.peerWIP h).bind fun w =>
    s.wips[w]?.map fun wip =>
      { s with
        peerWIP := Function.update s.peerWIP h none
        timedOutWIPs := if wip.isSome then s.timedOutWIPs ++ [w] else s.timedOutWIPs }

/-- `failedWIP` for an entry of the list. -/
def failedWIP (k : ℕ) : Option Daemon :=
  s.timedOutWIPs[k]?.bind fun w =>
    s.wips[w]?.map fun wip =>
      { s with
        timedOutWIPs := s.timedOutWIPs.eraseIdx k
        wips := s.wips.set w none
        job := match wip with
          | some p => s.job.failWork [p]
          | none => s.job }

/-- `checkParts`: a patch that is seen without other references.  A detached thread that has not yet
let go of it hides that. -/
def checkParts (locked : Bool) (seen : ℕ → Bool) : Daemon :=
  { s with job := s.job.checkParts locked fun i => seen i && s.unreferenced i }

/-- The actions. -/
inductive Act where
  | prepareRemoteWork (locked full : Bool)
  | prepared (k : ℕ)
  | prepareFailed (k : ℕ)
  | addConnection (h : ℕ)
  | reconnect (h : ℕ)
  | askWork (h : ℕ)
  | sendResult (h : ℕ)
  | lose (h c : ℕ)
  | sendWork (h c : ℕ) (slot arrives : Bool)
  | putParts (h c : ℕ)
  | copyReset (k : ℕ)
  | unpackWork (k : ℕ) (ok : Bool)
  | returnResults (k : ℕ) (ok : Bool)
  | returnWork (k : ℕ)
  | returnLocal
  | cleanupWIP (h : ℕ)
  | failedWIP (k : ℕ)
  | checkParts (locked : Bool) (seen : ℕ → Bool)

/-- The state after an action, `none` where it cannot happen. -/
def step : Act → Option Daemon
  | .prepareRemoteWork locked full => some (s.prepareRemoteWork locked full)
  | .prepared k => s.prepared k
  | .prepareFailed k => s.prepareFailed k
  | .addConnection h => some (s.getWIP h).1
  | .reconnect h => some (s.reconnect h)
  | .askWork h => some (s.askWork h)
  | .sendResult h => s.sendResult h
  | .lose h c => some (s.lose h c)
  | .sendWork h c slot arrives => s.sendWork h c slot arrives
  | .putParts h c => s.putParts h c
  | .copyReset k => s.copyReset k
  | .unpackWork k ok => s.unpackWork k ok
  | .returnResults k ok => s.returnResults k ok
  | .returnWork k => s.returnWork k
  | .returnLocal => some s.returnLocal
  | .cleanupWIP h => s.cleanupWIP h
  | .failedWIP k => s.failedWIP k
  | .checkParts locked seen => some (s.checkParts locked seen)

/-- The job is queued with all its patches, and no patch of it was handed out.  Hosts can have sent
anything; a local WIP of the job, which has no parts, can still be active. -/
structure Start (s : Daemon) : Prop where
  step : s.job.step = JStep.queued
  patches : s.job.patches ≠ [] ∧ ∀ p ∈ s.job.patches, p = JStep.queued
  preparing : s.preparing = []
  wip_queue : s.wip_queue = []
  wips : ∀ wip ∈ s.wips, wip = none
  peerWIP : ∀ h w, s.peerWIP h = some w → w < s.wips.length
  wip_active : s.wip_active = none ∨ s.wip_active = some none
  posted : s.posted = []
  handlers : s.handlers = []
  timedOutWIPs : s.timedOutWIPs = []
  results : s.results = []

end Daemon

end Redux
