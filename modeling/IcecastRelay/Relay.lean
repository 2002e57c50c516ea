import Mathlib.Data.List.Perm.Basic
import Mathlib.Logic.Function.Basic

/-! # Relay records

`relay_server` records in a heap of cells; a C list of relays is the list of its nodes' addresses.
Allocation returns the watermark `top`, so a fresh address is never one in use. -/
namespace IcecastRelay

/-- The bytes of a C string, without its terminating NUL. -/
abbrev CStr := List UInt8

/-- `strchr`: the index of the first `c` before the first NUL. -/
def strchr : List UInt8 → UInt8 → Option ℕ
  | [], _ => none
  | b :: s, c => if b = c then some 0 else if b = 0 then none else (strchr s c).map (· + 1)

def strlen : List UInt8 → ℕ
  | [] => 0
  | b :: s => if b = 0 then 0 else strlen s + 1

/-- The C string at a pointer: the bytes before the first NUL. -/
def cstr (s : List UInt8) : List UInt8 := s.takeWhile (· ≠ 0)

theorem cstr_length (s : List UInt8) : (cstr s).length = strlen s := by
  induction s with
  | nil => rfl
  | cons b s ih =>
    by_cases hb : b = 0
    · simp [cstr, strlen, hb]
    · simpa [cstr, strlen, List.takeWhile_cons, hb] using ih

structure RelayServer where
  server : CStr
  port : Int
  mount : CStr
  localmount : CStr
  username : Option CStr
  password : Option CStr
  mp3metadata : Int
  onDemand : Int
  enable : Int
  source : Option ℕ
  thread : Option ℕ
  running : Bool
  cleanup : Bool
  deriving DecidableEq, Repr

/-- What `update_relay_set` compares: the localmount and the fields `relay_has_changed` checks. -/
def RelayServer.key (r : RelayServer) : CStr × CStr × CStr × Int × Int :=
  (r.localmount, r.mount, r.server, r.port, r.mp3metadata)

structure RelayConfig where
  localmount : CStr
  server : CStr
  port : Int
  mount : CStr
  username : Option CStr
  password : Option CStr
  mp3metadata : Int
  onDemand : Int
  enable : Int
  deriving DecidableEq, Repr

def RelayServer.configured (r : RelayServer) : RelayConfig :=
  ⟨r.localmount, r.server, r.port, r.mount, r.username, r.password, r.mp3metadata, r.onDemand,
    r.enable⟩

theorem RelayServer.key_congr {r r' : RelayServer} (h : r.configured = r'.configured) :
    r.key = r'.key :=
  congrArg (fun c : RelayConfig => (c.localmount, c.mount, c.server, c.port, c.mp3metadata)) h

/-- The record `relay_copy` builds: the configured fields and the source, the runtime fields zero.
-/
def RelayServer.copy (r : RelayServer) : RelayServer :=
  { r with thread := none, running := false, cleanup := false }

@[simp] theorem RelayServer.copy_key (r : RelayServer) : r.copy.key = r.key := rfl

@[simp] theorem RelayServer.copy_source (r : RelayServer) : r.copy.source = r.source := rfl

structure Heap where
  cells : ℕ → RelayServer
  top : ℕ

namespace Heap

def set (h : Heap) (a : ℕ) (r : RelayServer) : Heap :=
  { h with cells := Function.update h.cells a r }

def alloc (h : Heap) (r : RelayServer) : Heap :=
  ⟨Function.update h.cells h.top r, h.top + 1⟩

@[simp] theorem set_top (h : Heap) (a : ℕ) (r : RelayServer) : (h.set a r).top = h.top := rfl

@[simp] theorem set_cells (h : Heap) (a b : ℕ) (r : RelayServer) :
    (h.set a r).cells b = if b = a then r else h.cells b := Function.update_apply _ _ _ _

@[simp] theorem alloc_top (h : Heap) (r : RelayServer) : (h.alloc r).top = h.top + 1 := rfl

@[simp] theorem alloc_cells (h : Heap) (b : ℕ) (r : RelayServer) :
    (h.alloc r).cells b = if b = h.top then r else h.cells b := Function.update_apply _ _ _ _

end Heap

/-- `l` is a C list of `h`: distinct nodes, all allocated. -/
def Linked (h : Heap) (l : List ℕ) : Prop := l.Nodup ∧ ∀ a ∈ l, a < h.top

instance (h : Heap) (l : List ℕ) : Decidable (Linked h l) :=
  inferInstanceAs (Decidable (_ ∧ _))

theorem Linked.perm {h : Heap} {l l' : List ℕ} (hl : Linked h l) (hp : List.Perm l l') :
    Linked h l' :=
  ⟨hp.nodup_iff.1 hl.1, fun a ha => hl.2 a (hp.mem_iff.2 ha)⟩

theorem Linked.sublist {h : Heap} {l l' : List ℕ} (hl : Linked h l) (hs : List.Sublist l' l) :
    Linked h l' :=
  ⟨hl.1.sublist hs, fun a ha => hl.2 a (hs.subset ha)⟩

theorem Linked.mono {h h' : Heap} {l : List ℕ} (hl : Linked h l) (ht : h.top ≤ h'.top) :
    Linked h' l :=
  ⟨hl.1, fun a ha => lt_of_lt_of_le (hl.2 a ha) ht⟩

/-- `relay_copy`: a record allocated at `h.top` takes the fields and the source of the record at
`r`, whose source is then cleared. -/
def relayCopy (h : Heap) (r : ℕ) : Heap :=
  (h.alloc (h.cells r).copy).set r { h.cells r with source := none }

@[simp] theorem relayCopy_top (h : Heap) (r : ℕ) : (relayCopy h r).top = h.top + 1 := rfl

theorem relayCopy_cells (h : Heap) (r b : ℕ) :
    (relayCopy h r).cells b =
      if b = r then { h.cells r with source := none }
      else if b = h.top then (h.cells r).copy else h.cells b := by
  by_cases hb : b = r
  · simp [relayCopy, hb]
  · simp [relayCopy, hb]

def slaveFindRelay (h : Heap) (relays : List ℕ) (mount : CStr) : Option ℕ :=
  relays.find? fun a => (h.cells a).localmount = mount

end IcecastRelay
