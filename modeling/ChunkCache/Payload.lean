import ChunkCache.Address
import ChunkCache.AttributeMap.Codec
import ChunkCache.Divergences
import ChunkCache.IdGenerator
import ChunkCache.Timeline

namespace ChunkCache

/-- The content of a chunk. -/
inductive Payload where
  | attributes (m : AttributeMap)
  | divergences (d : Divergences)
  | timeline (t : Timeline)
  | generator (g : IdGenerator)
  deriving DecidableEq

namespace Payload

/-- The empty payload for an address. Only a generator can be refused, when its number is no
prefix. -/
def ofAddress (a : Address) (fresh : Stamp) : Except Error Payload :=
  match a.kind with
  | .attributes => .ok (.attributes (.empty fresh))
  | .divergences => .ok (.divergences .empty)
  | .timeline => .ok (.timeline .empty)
  | .generator => (IdGenerator.ofPrefix a.id).map .generator

def kind : Payload → Kind
  | .attributes _ => .attributes
  | .divergences _ => .divergences
  | .timeline _ => .timeline
  | .generator _ => .generator

def tracker : Payload → Tracker
  | .attributes m => m.tracker
  | .divergences d => d.tracker
  | .timeline t => t.tracker
  | .generator g => g.tracker

def mapTracker (f : Tracker → Tracker) : Payload → Payload
  | .attributes m => .attributes { m with tracker := f m.tracker }
  | .divergences d => .divergences { d with tracker := f d.tracker }
  | .timeline t => .timeline { t with tracker := f t.tracker }
  | .generator g => .generator { g with tracker := f g.tracker }

def isDirty (p : Payload) : Bool := p.tracker.dirty

def listen (p : Payload) (listening : Bool) : Payload := p.mapTracker (·.listen listening)

def forgetNotices (p : Payload) : Payload := p.mapTracker fun t => { t with notices := 0 }

def encode : Payload → Bytes
  | .attributes m => m.encode
  | .divergences d => d.encode
  | .timeline t => t.encode
  | .generator g => g.encode

def save (p : Payload) : Bytes × Payload := (p.encode, p.mapTracker Tracker.clear)

/-- Merge a saved form of the same kind. -/
def load (p : Payload) (own : Ownership) (buffer : Bytes) : Except Error Payload :=
  match p with
  | .attributes m => (m.load own buffer).map .attributes
  | .divergences d => (d.load buffer).map .divergences
  | .timeline t => (t.load buffer).map .timeline
  | .generator g => (g.load buffer).map .generator

def attributes? : Payload → Option AttributeMap
  | .attributes m => some m
  | _ => none

/-- The refusal of a payload where one of kind `expected` was asked for. -/
def mismatch (p : Payload) (expected : Kind) : Error := .wrongKind expected.name p.kind.name

section Parts

variable {α : Type}

/-- Act on the attribute map in a payload of that kind. -/
def onAttributes (act : AttributeMap → α × AttributeMap) : Payload → Except Error (α × Payload)
  | .attributes m => .ok ((act m).map id .attributes)
  | p => .error (p.mismatch .attributes)

def onDivergences (act : Divergences → α × Divergences) : Payload → Except Error (α × Payload)
  | .divergences d => .ok ((act d).map id .divergences)
  | p => .error (p.mismatch .divergences)

def onTimeline (act : Timeline → α × Timeline) : Payload → Except Error (α × Payload)
  | .timeline t => .ok ((act t).map id .timeline)
  | p => .error (p.mismatch .timeline)

def onGenerator (act : IdGenerator → α × IdGenerator) : Payload → Except Error (α × Payload)
  | .generator g => .ok ((act g).map id .generator)
  | p => .error (p.mismatch .generator)

end Parts

/-- The payload as a short text; `shared` tells whether another live map uses the index of its
attributes. -/
def describe (p : Payload) (shared : Bool) : String :=
  match p with
  | .attributes m => s!"State({m.describe shared})"
  | .divergences d => s!"WorldOrder({d.describe})"
  | .timeline t => s!"TimeTree({t.describe})"
  | .generator g => s!"Gen({g.describe})"

@[simp]
theorem tracker_mapTracker (f : Tracker → Tracker) (p : Payload) :
    (p.mapTracker f).tracker = f p.tracker := by
  cases p <;> rfl

@[simp]
theorem kind_mapTracker (f : Tracker → Tracker) (p : Payload) : (p.mapTracker f).kind = p.kind := by
  cases p <;> rfl

@[simp]
theorem encode_mapTracker (f : Tracker → Tracker) (p : Payload) :
    (p.mapTracker f).encode = p.encode := by
  cases p <;> rfl

theorem kind_ofAddress {a : Address} {fresh : Stamp} {p : Payload}
    (h : ofAddress a fresh = .ok p) : p.kind = a.kind := by
  unfold ofAddress at h
  cases ha : a.kind with
  | generator =>
    simp only [ha] at h
    cases hg : IdGenerator.ofPrefix a.id with
    | error e => simp [hg, Except.map] at h
    | ok g =>
      simp only [hg, Except.map, Except.ok.injEq] at h
      rw [← h]
      rfl
  | _ =>
    simp only [ha, Except.ok.injEq] at h
    rw [← h]
    rfl

end Payload

end ChunkCache
