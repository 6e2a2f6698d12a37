import Arcature.Lib.Json
import Arcature.Lib.Machine
import Arcature.Lib.Table

/-! The live push (`notifications/broadcast.rs`) over the counted broadcast channel
    (`realtime/channel.rs`).

    A recipient's connections are receivers of one channel, which the map holds under the
    recipient's key. The map is swept when somebody subscribes: entries whose channel counts no
    subscriber go, and a later subscription of that key gets a fresh channel. A push looks its
    channel up under the lock and sends into it after the lock is gone. A subscription drops in
    three steps: it reads the count, exchanges it for one less (and starts over where the exchange
    fails), and only then lets its receiver go.

        subscribe:  [sweep; entry or new channel; count + 1; receiver]      (one lock)
        push:       [channel_for]  ──▶  encode  ──▶  send
        drop:       load ⇄ exchange  ──▶  close -/

namespace Arcature.Notifications.Live
open Arcature.Lib

/-- The address of a channel. -/
abbrev ChannelId := ℕ

/-- The place of a subscription among all that were ever made. -/
abbrev SubId := ℕ

/-! ### The counted channel -/

/-- A channel: what its sender knows of its receivers, and the count kept beside it. -/
structure Broadcast where
  capacity : ℕ
  subscriberCount : ℕ
  receivers : List SubId

/-- `Broadcast::new`. -/
def Broadcast.new (capacity : ℕ) : Option Broadcast :=
  if capacity = 0 then none else some ⟨capacity, 0, []⟩

/-- `Broadcast::subscribe`: count first, then the receiver. -/
def Broadcast.subscribe (b : Broadcast) (i : SubId) : Broadcast :=
  { b with subscriberCount := b.subscriberCount + 1, receivers := b.receivers ++ [i] }

/-- An error from a channel operation. -/
inductive ChannelError where | lagged | closed | full

/-- A send of the underlying channel, from the receivers subscribed at that moment: the number it
    reports, or an error, and the receivers it reaches. -/
abbrev Send := List SubId → Option ℕ × List SubId

/-- `Broadcast::publish`, with the receivers reached. -/
def Broadcast.publish (send : Send) (b : Broadcast) : Except ChannelError ℕ × List SubId :=
  match send b.receivers with
  | (some n, reached) => (.ok n, reached)
  | (none, reached) => (.error .closed, reached)

/-- How far the drop of a subscription has come. -/
inductive Phase where
  | held
  | loaded (current : ℕ)
  | counted
  | closed
  deriving DecidableEq

/-- A subscription: the key it was made for, its channel, and how far its drop has come. -/
structure Subscription where
  key : String
  channel : ChannelId
  phase : Phase

/-- Live until its drop has counted it out. -/
def Subscription.live (sub : Subscription) : Bool :=
  match sub.phase with
  | .held | .loaded _ => true
  | .counted | .closed => false

/-! ### The map of channels -/

/-- An entry of the map. -/
structure Entry where
  key : String
  channel : ChannelId

abbrev entries : Schema Entry String := ⟨Entry.key, fun _ => true⟩

structure PerRecipientChannels where
  capacity : ℕ
  channels : Table entries

/-- `PerRecipientChannels::new`. -/
def PerRecipientChannels.new (capacity : ℕ) : Option PerRecipientChannels :=
  if capacity = 0 then none else some ⟨capacity, Table.empty⟩

/-- A live push with a kind and a payload. -/
structure BroadcastContent where
  kind : Str
  data : Json

/-- What a subscriber receives, as JSON. -/
def BroadcastContent.envelope (content : BroadcastContent) : Json :=
  Json.objectOf [("kind".toList, .string content.kind), ("data".toList, content.data)]

/-- A call of `push`: the channel it looked up, until it is done. -/
structure Push where
  key : String
  content : BroadcastContent
  channel : Option ChannelId

/-- The process: the map, the channels by address, the subscriptions and the pushes so far. -/
structure World where
  resolver : PerRecipientChannels
  heap : ChannelId → Broadcast
  allocated : ℕ
  subs : List Subscription
  pushes : List Push

namespace World

/-- The subscriber count of a channel, as a load reads it. -/
def subscriberCount (w : World) (c : ChannelId) : ℕ := (w.heap c).subscriberCount

/-- Change the channel at an address. -/
def onChannel (w : World) (c : ChannelId) (f : Broadcast → Broadcast) : World :=
  { w with heap := Function.update w.heap c (f (w.heap c)) }

/-- The sweep: keep the entries that count a subscriber, and the one being subscribed to. -/
def sweep (w : World) (notifiableKey : String) : World :=
  { w with resolver := { w.resolver with
      channels := w.resolver.channels.delete fun e =>
        !(w.subscriberCount e.channel > 0 || e.key = notifiableKey) } }

/-- `entry(..).or_insert_with(..)`. There is no channel where the capacity is zero: a panic. -/
def entryOrNew (w : World) (notifiableKey : String) : Option (World × ChannelId) :=
  match w.resolver.channels.get? notifiableKey with
  | some e => some (w, e.channel)
  | none => (Broadcast.new w.resolver.capacity).map fun b =>
    ({ w with
        resolver := { w.resolver with
          channels := w.resolver.channels.put ⟨notifiableKey, w.allocated⟩ rfl }
        heap := Function.update w.heap w.allocated b
        allocated := w.allocated + 1 }, w.allocated)

/-- Hand a subscription of a channel out. -/
def attach (w : World) (notifiableKey : String) (c : ChannelId) : World :=
  let w := w.onChannel c fun b => b.subscribe w.subs.length
  { w with subs := w.subs ++ [⟨notifiableKey, c, .held⟩] }

/-- `subscribe`, all of it under the lock. -/
def subscribe (w : World) (notifiableKey : String) : Option World :=
  ((w.sweep notifiableKey).entryOrNew notifiableKey).map fun (w', c) => w'.attach notifiableKey c

/-- `len`. -/
def len (w : World) : ℕ := w.resolver.channels.size

/-- `channel_for`: deliberately does not create. -/
def channelFor (w : World) (notifiableKey : String) : Option ChannelId :=
  (w.resolver.channels.get? notifiableKey).map Entry.channel

/-- Move a subscription's drop on. -/
def advance (w : World) (i : SubId) (sub : Subscription) (phase : Phase) : World :=
  { w with subs := w.subs.set i { sub with phase } }

end World

/-! ### The machine -/

/-- One atomic step of any thread. -/
inductive Step where
  | subscribe (notifiableKey : String)
  | load (i : SubId)
  | exchange (i : SubId) (spurious : Bool)
  | close (i : SubId)
  | lookup (notifiableKey : String) (content : BroadcastContent)
  | publish (p : ℕ)

/-- Why a push fails. -/
inductive PushError where
  | encode (error : Str)

/-- What a step answers: a subscription, or the end of a push with what it reports, the payload it
    sent and the subscriptions it reached. -/
inductive Outcome where
  | quiet
  | panicked
  | subscribed (i : SubId)
  | pushed (p : ℕ) (result : Except PushError ℕ) (payload : Option Bytes) (reached : List SubId)

/-- What the code takes from elsewhere: the send of the channel and the JSON serializer. -/
structure Externals where
  send : Send
  toVec : Json → Except Str Bytes

variable (X : Externals)

/-- The end of a push: encode, send, and answer a failed send with zero. -/
def World.finish (w : World) (p : ℕ) (content : BroadcastContent) (c : ChannelId) : Outcome :=
  match X.toVec content.envelope with
  | .error error => .pushed p (.error (.encode error)) none []
  | .ok bytes =>
    match (w.heap c).publish X.send with
    | (.ok n, reached) => .pushed p (.ok n) (some bytes) reached
    | (.error _, reached) => .pushed p (.ok 0) (some bytes) reached

/-- One step. A step that is not enabled does nothing. -/
def World.step (w : World) : Step → World × Outcome
  | .subscribe notifiableKey =>
    match w.subscribe notifiableKey with
    | some w' => (w', .subscribed w.subs.length)
    | none => (w, .panicked)
  | .load i =>
    match w.subs[i]? with
    | some sub =>
      match sub.phase with
      | .held =>
        if w.subscriberCount sub.channel = 0 then (w.advance i sub .counted, .quiet)
        else (w.advance i sub (.loaded (w.subscriberCount sub.channel)), .quiet)
      | _ => (w, .quiet)
    | none => (w, .quiet)
  | .exchange i spurious =>
    match w.subs[i]? with
    | some sub =>
      match sub.phase with
      | .loaded current =>
        if w.subscriberCount sub.channel = current ∧ spurious = false then
          ((w.onChannel sub.channel fun b => { b with subscriberCount := current - 1 }).advance i sub
            .counted, .quiet)
        else (w.advance i sub .held, .quiet)
      | _ => (w, .quiet)
    | none => (w, .quiet)
  | .close i =>
    match w.subs[i]? with
    | some sub =>
      match sub.phase with
      | .counted =>
        ((w.onChannel sub.channel fun b => { b with receivers := b.receivers.erase i }).advance i sub
          .closed, .quiet)
      | _ => (w, .quiet)
    | none => (w, .quiet)
  | .lookup notifiableKey content =>
    let channel := w.channelFor notifiableKey
    ({ w with pushes := w.pushes ++ [⟨notifiableKey, content, channel⟩] },
      if channel.isSome then .quiet else .pushed w.pushes.length (.ok 0) none [])
  | .publish p =>
    match w.pushes[p]? with
    | some push =>
      match push.channel with
      | some c =>
        ({ w with pushes := w.pushes.set p { push with channel := none } }, w.finish X p push.content c)
      | none => (w, .quiet)
    | none => (w, .quiet)

/-- The process around a fresh set of channels. -/
def hub (channels : PerRecipientChannels) : Machine World Step Outcome :=
  ⟨⟨channels, fun _ => ⟨0, 0, []⟩, 0, [], []⟩, World.step X⟩

end Arcature.Notifications.Live
