/-! Ownership of heap values in one routine. A string that the routine holds is acquired, used one
or more times and then released once; a value that the routine makes for another is allocated and
then transferred once. -/
namespace ExtensionHeader.Ownership

inductive Event where
  | acquire (handle : String)
  | consume (handle user : String)
  | release (handle : String)
  | allocate (handle : String)
  | transfer (handle target : String)
deriving DecidableEq, Repr, Inhabited

inductive Imbalance where
  | createdTwice (handle : String)
  | neverCreated (handle : String)
  | consumedAllocation (handle user : String)
  | usedAfterRelease (handle user : String)
  | releasedAllocation (handle : String)
  | releasedUnused (handle : String)
  | transferredCounted (handle target : String)
  | releaseCount (handle : String) (count : Nat)
  | transferCount (handle : String) (count : Nat)
deriving DecidableEq, Repr, Inhabited

def Imbalance.message : Imbalance → String
  | createdTwice handle => s!"{handle} created twice"
  | neverCreated handle => s!"{handle} used but never created"
  | consumedAllocation handle user => s!"{handle} consumed by {user} but never acquired"
  | usedAfterRelease handle user => s!"{handle} used by {user} after release"
  | releasedAllocation handle => s!"{handle} released but it was allocated"
  | releasedUnused handle => s!"{handle} released before any use"
  | transferredCounted handle target => s!"{handle} transferred to {target} but never allocated"
  | releaseCount handle count => s!"{handle} acquired once but released {count} times"
  | transferCount handle count => s!"{handle} allocated once but transferred {count} times"

inductive Status where
  | counted (uses releases : Nat)
  | allocated (transfers : Nat)
deriving DecidableEq, Repr, Inhabited

abbrev Ledger := List (String × Status)

namespace Ledger

def find? (l : Ledger) (handle : String) : Option Status := l.lookup handle

def create (l : Ledger) (handle : String) (status : Status) : Except Imbalance Ledger :=
  match l.find? handle with
  | some _ => .error (.createdTwice handle)
  | none => .ok (l ++ [(handle, status)])

def set (l : Ledger) (handle : String) (status : Status) : Ledger :=
  l.map fun entry => if entry.1 = handle then (handle, status) else entry

def advance : Event → Status → Except Imbalance Status
  | .consume handle user, .allocated _ => .error (.consumedAllocation handle user)
  | .consume handle user, .counted uses releases =>
    if releases = 0 then .ok (.counted (uses + 1) releases)
    else .error (.usedAfterRelease handle user)
  | .release handle, .allocated _ => .error (.releasedAllocation handle)
  | .release handle, .counted uses releases =>
    if uses = 0 then .error (.releasedUnused handle) else .ok (.counted uses (releases + 1))
  | .transfer handle target, .counted .. => .error (.transferredCounted handle target)
  | .transfer _ _, .allocated transfers => .ok (.allocated (transfers + 1))
  | .acquire _, status | .allocate _, status => .ok status

def use (l : Ledger) (handle : String) (event : Event) : Except Imbalance Ledger :=
  match l.find? handle with
  | none => .error (.neverCreated handle)
  | some status => (advance event status).map (l.set handle)

def step (l : Ledger) (event : Event) : Except Imbalance Ledger :=
  match event with
  | .acquire handle => l.create handle (.counted 0 0)
  | .allocate handle => l.create handle (.allocated 0)
  | .consume handle _ | .release handle | .transfer handle _ => l.use handle event

def settle : Ledger → Except Imbalance Unit
  | [] => .ok ()
  | (handle, .counted _ releases) :: rest =>
    if releases = 1 then settle rest else .error (.releaseCount handle releases)
  | (handle, .allocated transfers) :: rest =>
    if transfers = 1 then settle rest else .error (.transferCount handle transfers)

def run (l : Ledger) : List Event → Except Imbalance Ledger
  | [] => .ok l
  | event :: rest =>
    match l.step event with
    | .ok next => next.run rest
    | .error imbalance => .error imbalance

end Ledger

/-- Whether every handle is balanced; the first fault in the order of the events is reported, and
handles that are never settled come after that in the order of their creation. -/
def check (events : List Event) : Except Imbalance Unit :=
  match Ledger.run [] events with
  | .ok ledger => ledger.settle
  | .error imbalance => .error imbalance

def acquired (events : List Event) : Nat :=
  events.countP fun | .acquire _ => true | _ => false

def released (events : List Event) : Nat :=
  events.countP fun | .release _ => true | _ => false

end ExtensionHeader.Ownership
