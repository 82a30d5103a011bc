import RenaProxy.Http.Transfer
import RenaProxy.Lib.Ring

/-!
# The client table

`clients.c` keeps a node for each requester and the victim that serves it. The nodes lie
on the heap, linked to a ring, and the table points to the newest one. A position is what
`clients_search` hands out; it may outlive its node.
-/
namespace RenaProxy
open Failure LinkedRing

/-- An address on the heap. -/
abbrev Address := ℕ

/-- What can go wrong in an operation on the table. -/
inductive TableFault
  /-- a pointer that is `NULL` or leads to freed memory is followed -/
  | badPointer
  /-- `abort` in `clients_del` -/
  | negativeQuantity
  /-- a loop along the ring that has not come round -/
  | endless
  deriving DecidableEq, Repr

/-- `struct circle_client_info`, a null pointer is `none`. -/
structure CircleClientInfo where
  next : Option Address
  prev : Option Address
  requester : Option ClientInfo
  victim : Option ClientInfo
  deriving DecidableEq, Repr

/-- The client on one side of a node. -/
def CircleClientInfo.client (n : CircleClientInfo) : ClientType → Option ClientInfo
  | .requester => n.requester
  | .victim => n.victim

/-- `client_position_t`. `info` tells whether the pointer is set, `none` stands for
`INVALID_TYPE`. -/
structure ClientPosition where
  info : Bool
  type : Option ClientType
  pos : Option Address
  deriving DecidableEq, Repr

/-- What `memset` makes of a position. -/
def ClientPosition.zero : ClientPosition := ⟨false, none, none⟩

/-- `struct clients`, with the memory that the nodes lie in. -/
structure Clients where
  heap : Address → Option CircleClientInfo
  cci : Option Address
  qty : ℤ

/-- `http_sent_done` -/
def httpSentDone : Option Http → Bool
  | none => true
  | some p => p.buffer.length ≤ p.bufferSent

/-- `client_info_destroy` -/
def clientInfoDestroy (ci : ClientInfo) (deleteAll : Bool) : Option ClientInfo :=
  if deleteAll then none
  else some { ci with ssl := false, fd := if 0 ≤ ci.fd then -1 else ci.fd }

/-- `clients_add_ci`, where the mutex can be set up. -/
def clientsAddCi (fd : ℤ) : ClientInfo := ⟨fd, false, 0, none⟩

namespace Clients

/-- `clients_init` -/
def init : Clients := ⟨fun _ => none, none, 0⟩

/-- The node that a pointer leads to. -/
def deref (s : Clients) (p : Option Address) : Except TableFault CircleClientInfo :=
  match p.bind s.heap with
  | some n => .ok n
  | none => .error .badPointer

/-- `aux->next` -/
def follow (s : Clients) (aux : Address) : Except TableFault Address := do
  let n ← s.deref (some aux)
  match n.next with
  | some y => pure y
  | none => .error .badPointer

/-- Writing the node at an address. -/
def store (s : Clients) (a : Address) (n : Option CircleClientInfo) : Clients :=
  { s with heap := Function.update s.heap a n }

/-- Writing fields of the node that a pointer leads to. -/
def modify (s : Clients) (p : Option Address) (f : CircleClientInfo → CircleClientInfo) :
    Except TableFault Clients :=
  match p with
  | none => .error .badPointer
  | some a => do
      let n ← s.deref (some a)
      pure (s.store a (some (f n)))

/-- `clients_add`. The node comes to lie at `a`. -/
def add (s : Clients) (t : Option ClientType) (fd : ℤ) (a : Address) :
    Except TableFault (Clients × ℤ) := do
  let cci : CircleClientInfo :=
    if t = some .requester then ⟨none, none, some (clientsAddCi fd), none⟩
    else ⟨none, none, none, some (clientsAddCi fd)⟩
  let s := s.store a (some cci)
  let s ←
    if s.cci ≠ none then do
      let s ← s.modify (some a) fun n => { n with next := s.cci }
      let head ← s.deref s.cci
      let s ← s.modify (some a) fun n => { n with prev := head.prev }
      let s ← s.modify head.prev fun n => { n with next := some a }
      let s ← s.modify s.cci fun n => { n with prev := some a }
      pure { s with cci := some a }
    else do
      let s ← s.modify (some a) fun n => { n with next := some a }
      let s ← s.modify (some a) fun n => { n with prev := some a }
      pure { s with cci := some a }
  pure ({ s with qty := s.qty + 1 }, 0)

/-- `clients_search_pointer_locked` -/
def searchPointerLocked (fuel : ℕ) (s : Clients) (toSearch : Option Address) :
    Except TableFault ℤ :=
  match s.cci, toSearch with
  | some cci, some a => do
      let found ← searchRing s.follow (fun aux => pure (if aux = a then some () else none))
        .endless cci fuel cci
      pure (if found.isSome then 0 else 1)
  | _, _ => pure 1

/-- The part of `clients_del` that takes a node without clients off the ring. -/
def unlink (s : Clients) (p : ClientPosition) : Except TableFault (Clients × ClientPosition) := do
  let cci ← s.deref p.pos
  let s ← s.modify cci.next fun n => { n with prev := cci.prev }
  let cci ← s.deref p.pos
  let s ← s.modify cci.prev fun n => { n with next := cci.next }
  let cci ← s.deref p.pos
  let s := if s.cci = p.pos then
      { s with cci := if p.pos ≠ cci.next then cci.next else none }
    else s
  match p.pos with
  | none => .error .badPointer
  | some a => pure ({ s.store a none with qty := s.qty - 1 }, .zero)

/-- The part of `clients_del` that destroys the clients of a node. -/
def delClients (s : Clients) (p : ClientPosition) : Except TableFault Clients := do
  let s ←
    if p.type = some .requester then do
      let cci ← s.deref p.pos
      match cci.requester with
      | none => .error .badPointer
      | some r => s.modify p.pos fun n => { n with requester := clientInfoDestroy r true }
    else pure s
  let cci ← s.deref p.pos
  if p.type = some .victim ∨ cci.requester = none then
    match cci.victim with
    | none => pure s
    | some v =>
        let flag := cci.requester.isNone || (decide (v.fd < 0) && httpSentDone v.protocol)
        s.modify p.pos fun n => { n with victim := clientInfoDestroy v flag }
  else pure s

/-- `clients_del` -/
def del (fuel : ℕ) (s : Clients) (p : ClientPosition) :
    Except TableFault (Clients × ClientPosition × ℤ) :=
  if p.info = false ∨ p.pos = none ∨ p.type = none then pure (s, p, -1)
  else do
    let erasedBefore ← s.searchPointerLocked fuel p.pos
    if erasedBefore = 0 then do
      let s ← s.delClients p
      let cci ← s.deref p.pos
      let (s, p) ←
        if cci.requester = none ∧ cci.victim = none then s.unlink p else pure (s, p)
      if s.qty < 0 then .error .negativeQuantity else pure (s, p, 0)
    else pure (s, p, 1)

/-- What `clients_search` compares at one node. -/
def searchLook (s : Clients) (fd : ℤ) (aux : Address) : Except TableFault (Option ClientPosition) := do
  let n ← s.deref (some aux)
  if n.requester.any (·.fd = fd) then pure (some ⟨true, some .requester, some aux⟩)
  else if n.victim.any (·.fd = fd) then pure (some ⟨true, some .victim, some aux⟩)
  else pure none

/-- `clients_search` -/
def search (fuel : ℕ) (s : Clients) (fd : ℤ) : Except TableFault (ClientPosition × ℤ) :=
  match s.cci with
  | none => pure (.zero, 1)
  | some cci => do
      let found ← searchRing s.follow (s.searchLook fd) .endless cci fuel cci
      match found with
      | some out => pure (out, 0)
      | none => pure (.zero, 1)

/-- `clients_add_peer` -/
def addPeer (s : Clients) (p : ClientPosition) (fd : ℤ) : Except TableFault (Clients × ℤ) :=
  if fd < 0 then pure (s, -1)
  else if p.pos = none ∨ p.type = none then pure (s, -2)
  else do
    let cci ← s.deref p.pos
    if p.type = some .requester then
      if cci.victim ≠ none then pure (s, -3)
      else do
        let s ← s.modify p.pos fun n => { n with victim := some (clientsAddCi fd) }
        pure (s, 0)
    else
      if cci.requester ≠ none then pure (s, -3)
      else do
        let s ← s.modify p.pos fun n => { n with requester := some (clientsAddCi fd) }
        pure (s, 0)

end Clients

end RenaProxy
