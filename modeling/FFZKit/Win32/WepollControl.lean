import FFZKit.Win32.WepollSections
import FFZKit.Win32.WepollWait

/-!
# `epoll_ctl` on a port

A call either changes what is watched for its socket and nothing else, or it fails
and changes nothing. It fails to add what is watched already, and to change or
remove what is not. The updates that it may cause lose closed sockets only.
-/

namespace FFZKit.Win32.Wepoll

open FFZKit.Foundations

/-- What the user watches from a call on: errors and hang-ups always belong to it. -/
def EpollEvent.watch (ev : EpollEvent) (socket : Nat) : Watch :=
  ⟨socket, ev.events ||| EPOLLERR ||| EPOLLHUP, ev.data⟩

namespace Port

variable {p p' q : Port} {packets : List Nat} {a b socket : Nat} {c : SockState} {ans : Answers}
  {groups : List PollGroup} {ev : EpollEvent}

/-- What is watched changes at one address. -/
structure Sets (p p' : Port) (a : Nat) (new : Option Watch) : Prop where
  here : p'.watch a = new
  others : ∀ b, b ≠ a → p'.watch b = p.watch b

/-- No socket is watched under the number. -/
def Unwatched (p : Port) (socket : Nat) : Prop := ∀ b w, p.watch b = some w → w.key ≠ socket

theorem Sound.unwatched_iff (h : Sound p packets) :
    p.findSocket socket = none ↔ Unwatched p socket := by
  constructor
  · intro hnone b w hw hkey
    rw [h.findSocket_iff.mpr ⟨w, hw, hkey⟩] at hnone
    cases hnone
  · intro hnone
    cases hfind : p.findSocket socket with
    | none => rfl
    | some a =>
        obtain ⟨w, hw, hkey⟩ := h.findSocket_iff.mp hfind
        exact absurd hkey (hnone a w hw)

/-- A socket that is found has a registered `sock_state_t`. -/
theorem Sound.exists_of_find (h : Sound p packets) (hfind : p.findSocket socket = some a) :
    ∃ c, p.socks.get? a = some c ∧ c.deletePending = false ∧ c.key = socket := by
  obtain ⟨w, hw, hkey⟩ := h.findSocket_iff.mp hfind
  obtain ⟨c, hc, hcw⟩ := Option.bind_eq_some_iff.mp hw
  cases hkept : c.deletePending with
  | true => simp [SockState.watch, hkept] at hcw
  | false =>
      refine ⟨c, hc, hkept, ?_⟩
      simp only [SockState.watch, hkept, Bool.false_eq_true, if_false, Option.some.injEq] at hcw
      rw [← hcw] at hkey
      exact hkey

/-- What every call leaves. -/
structure Serves (ans : Answers) (packets : List Nat) (p p' : Port) : Prop where
  sound : Sound p' packets
  covers : CoversBut none p'
  active : p'.activePollCount = p.activePollCount
  drained : Able ans → Drained p → Drained p'

/-- What a call does for the user. `lost` are the sockets that an update has found closed. -/
inductive Controls (ans : Answers) (packets : List Nat) (p p' : Port) :
    Ctl → Except Error Unit → Prop
  | refused (op : Ctl) (e : Error) (same : ∀ b, p'.watch b = p.watch b)
      (missing : ∀ socket ev, op = .mod socket ev ∨ op = .del socket →
        e = .notFound ∧ Unwatched p socket) : Controls ans packets p p' op (.error e)
  | added (socket : Nat) (ev : EpollEvent) (a : Nat) (q : Port) (home : ans.newSock = some a)
      (fresh : p.watch a = none) (unwatched : Unwatched p socket) (sound : Sound q packets)
      (sets : Sets p q a (some (ev.watch socket)))
      (lost : Loses (fun b => ans.afdPoll b = .closed) q p') :
      Controls ans packets p p' (.add socket ev) (.ok ())
  | modified (socket : Nat) (ev : EpollEvent) (a : Nat) (q : Port)
      (found : p.findSocket socket = some a) (sound : Sound q packets)
      (sets : Sets p q a (some (ev.watch socket)))
      (lost : Loses (fun b => ans.afdPoll b = .closed) q p') :
      Controls ans packets p p' (.mod socket ev) (.ok ())
  | removed (socket a : Nat) (found : p.findSocket socket = some a) (sets : Sets p p' a none) :
      Controls ans packets p p' (.del socket) (.ok ())

/-- Other groups of the right sizes. -/
theorem Sound.regroup (h : Sound p packets) (hgroups : Groups (load p.socks) groups) :
    Sound { p with pollGroupQueue := groups } packets where
  outstanding := h.outstanding
  keys := h.keys
  updating := h.updating
  deleted := h.deleted
  groups := hgroups
  fits := fun a =>
    (h.fits a).of_same ⟨rfl, Iff.rfl, Iff.rfl, fun _ => Iff.rfl, Iff.rfl, Iff.rfl⟩

theorem Sound.register (h : Sound p packets) (hfresh : p.socks.get? a = none)
    (hkey : c.key ∉ p.sockTree.map Prod.fst) (hkept : c.deletePending = false)
    (hidle : c.pollStatus = .idle) (hgroups : Groups (load (p.socks.write a c)) groups) :
    Sound (p.register a c groups) packets := by
  cases h.fits a with
  | live d sock => rw [hfresh] at sock; cases sock
  | dying d sock => rw [hfresh] at sock; cases sock
  | absent _ busy tree updating deleted =>
      refine ⟨h.outstanding, List.nodup_cons.mpr ⟨hkey, h.keys⟩, h.updating, h.deleted, hgroups,
        h.fits_of_onlyAt (a := a) ?_ ?_⟩
      · intro b hb
        exact ⟨Heap.get?_write_of_ne _ hb, Iff.rfl, Iff.rfl, fun k => by simp [Port.register, hb],
          Iff.rfl, Iff.rfl⟩
      · refine .live c (Heap.get?_write_self _ _ _) hkept ?_ ?_ deleted ?_
        · simpa [Port.register, hidle] using busy
        · intro k
          simp [Port.register, tree k]
        · intro _ hpending
          rw [hidle] at hpending
          cases hpending

theorem CoversBut.register (hcovers : CoversBut none p) (c : SockState)
    (groups : List PollGroup) : CoversBut (some a) (p.register a c groups) := by
  intro b d hb hd hkept
  have hne : b ≠ a := fun heq => hb (heq ▸ rfl)
  rw [Port.register, Heap.get?_write_of_ne _ hne] at hd
  exact hcovers b d (by simp) hd hkept

/-- What `sock_new` leaves: a port as it was for the user, or one with the new socket. -/
theorem Sound.sockNew (h : Sound p packets) (hfresh : p.Fresh ans) (socket : Nat) :
    (∃ e groups, p.sockNew ans socket = some ({ p with pollGroupQueue := groups }, .error e) ∧
      Groups (load p.socks) groups) ∨
    ∃ a groups baseSocket group,
      p.sockNew ans socket = some (p.register a (.new socket baseSocket group) groups, .ok a) ∧
      ans.newSock = some a ∧ p.findSocket socket = none ∧
      Groups (load (p.socks.write a (.new socket baseSocket group))) groups := by
  unfold Port.sockNew
  by_cases hinvalid : socket = 0 ∨ socket = invalidSocket
  · exact Or.inl ⟨.invalidHandle, p.pollGroupQueue, by rw [if_pos hinvalid], h.groups⟩
  · rw [if_neg hinvalid]
    cases ans.baseSocket with
    | none => exact Or.inl ⟨.system, p.pollGroupQueue, rfl, h.groups⟩
    | some baseSocket =>
        dsimp only
        cases hacquire : pollGroupAcquire ans.newGroup p.pollGroupQueue with
        | error e => exact Or.inl ⟨e, p.pollGroupQueue, rfl, h.groups⟩
        | ok acquired =>
            obtain ⟨groups, group⟩ := acquired
            have hgrown : Groups (fun y => load p.socks y + if y = group then 1 else 0) groups :=
              h.groups.acquire (fun g hg => hfresh.2 g (by rw [hg]; rfl)) hacquire fun _ => rfl
            obtain ⟨groups', hrelease, hgroups'⟩ : ∃ groups',
                pollGroupRelease group groups = some groups' ∧ Groups (load p.socks) groups' :=
              hgrown.release (by simp) fun _ => rfl
            dsimp only
            cases hnew : ans.newSock with
            | none => exact Or.inl ⟨.notEnoughMemory, groups', by rw [hrelease]; rfl, hgroups'⟩
            | some a =>
                dsimp only
                cases hfind : p.sockTree.lookup socket with
                | some b =>
                    refine Or.inl ⟨.alreadyExists, groups', ?_, hgroups'⟩
                    simp only [Option.isSome_some, if_true, hrelease, Option.map_some]
                | none =>
                    refine Or.inr ⟨a, groups, baseSocket, group, ?_, rfl, hfind, ?_⟩
                    · simp only [Option.isSome_none, Bool.false_eq_true, if_false]
                    · have hload : load (p.socks.write a (.new socket baseSocket group)) =
                          fun y => load p.socks y + if y = group then 1 else 0 :=
                        funext (load_new p.socks (hfresh.1 a hnew))
                      rw [hload]
                      exact hgrown

/-- Setting the events of a socket, with the updates that follow. -/
theorem Sound.setAndUpdate (h : Sound p packets) (hcovers : CoversBut (some a) p)
    (hc : p.socks.get? a = some c) (hkept : c.deletePending = false)
    (hidle : c.pollStatus = .idle → a ∈ p.sockUpdateQueue ∨ c.pendingEvents = 0)
    (ev : EpollEvent) (ans : Answers) :
    ∃ q p', p.sockSetEvent a ev = some q ∧ q.updateEventsIfPolling ans = some p' ∧
      Sound q packets ∧ Serves ans packets p p' ∧ SameElse p q a ∧
      q.watch a = some (ev.watch c.key) ∧ Loses (fun b => ans.afdPoll b = .closed) q p' := by
  obtain ⟨q, hset, hsound, hall, hactive, helse, hwatch⟩ :=
    h.sockSetEvent hcovers hc hkept hidle ev
  obtain ⟨p', hupdate, hupdated, hdrained⟩ := hsound.updateEventsIfPolling hall ans
  exact ⟨q, p', hset, hupdate, hsound, ⟨hupdated.sound, hupdated.covers,
    hupdated.active.trans hactive, fun able _ => hdrained able⟩, helse, hwatch, hupdated.loses⟩

/-- `port__ctl_add`. -/
theorem Sound.ctlAdd (h : Sound p packets) (hcovers : CoversBut none p) (hfresh : p.Fresh ans)
    (socket : Nat) (ev : EpollEvent) :
    ∃ p' r, p.ctlAdd ans socket ev = some (p', r) ∧ Serves ans packets p p' ∧
      Controls ans packets p p' (.add socket ev) r := by
  unfold Port.ctlAdd
  rcases h.sockNew hfresh socket with
    ⟨e, groups, hnew, hgroups⟩ | ⟨a, groups, baseSocket, group, hnew, hsome, hfind, hgroups⟩
  · refine ⟨{ p with pollGroupQueue := groups }, .error e, by rw [hnew]; rfl, ?_, ?_⟩
    · exact ⟨h.regroup hgroups, hcovers, rfl, fun _ hdrained => hdrained⟩
    · exact .refused _ e (fun _ => rfl) (by simp)
  · have hnone := hfresh.1 a hsome
    have hkey : socket ∉ p.sockTree.map Prod.fst := by
      intro hmem
      obtain ⟨x, hx, hsame⟩ := List.mem_map.mp hmem
      simpa [hsame] using List.lookup_eq_none_iff.mp hfind x hx
    have hregister := h.register (c := .new socket baseSocket group) hnone hkey rfl rfl hgroups
    obtain ⟨q, p', hset, hupdate, hsound, hserves, helse, hwatch, hloses⟩ :=
      hregister.setAndUpdate (hcovers.register _ groups) (Heap.get?_write_self _ _ _) rfl
        (fun _ => Or.inr rfl) ev ans
    refine ⟨p', .ok (), ?_, ⟨hserves.sound, hserves.covers, hserves.active, hserves.drained⟩, ?_⟩
    · rw [hnew]
      simp only [Option.bind_eq_bind, Option.bind_some, hset, hupdate]
    · have hunwatched : p.watch a = none := by simp only [watch, hnone, Option.bind_none]
      refine .added socket ev a q hsome hunwatched (h.unwatched_iff.mp hfind) hsound
        ⟨hwatch, fun b hb => ?_⟩ hloses
      rw [helse.watch hb]
      simp only [watch, Port.register, Heap.get?_write_of_ne _ hb]

/-- A registered socket without a poll is on the update queue. -/
theorem CoversBut.queued_of_idle (hcovers : CoversBut none p) (hc : p.socks.get? a = some c)
    (hkept : c.deletePending = false) (hidle : c.pollStatus = .idle) :
    a ∈ p.sockUpdateQueue := by
  rcases hcovers a c (by simp) hc hkept with (hcancelled | ⟨hpending, _⟩) | hqueued
  · rw [hidle] at hcancelled
    cases hcancelled
  · rw [hidle] at hpending
    cases hpending
  · exact hqueued

/-- `port__ctl_mod`. -/
theorem Sound.ctlMod (h : Sound p packets) (hcovers : CoversBut none p) (ans : Answers)
    (socket : Nat) (ev : EpollEvent) :
    ∃ p' r, p.ctlMod ans socket ev = some (p', r) ∧ Serves ans packets p p' ∧
      Controls ans packets p p' (.mod socket ev) r := by
  unfold Port.ctlMod
  cases hfind : p.findSocket socket with
  | none =>
      refine ⟨p, .error .notFound, rfl, ⟨h, hcovers, rfl, fun _ hdrained => hdrained⟩, ?_⟩
      refine .refused _ _ (fun _ => rfl) fun socket' _ hop => ⟨rfl, ?_⟩
      obtain rfl : socket = socket' := by simp at hop; exact hop.1
      exact h.unwatched_iff.mp hfind
  | some a =>
      obtain ⟨c, hc, hkept, rfl⟩ := h.exists_of_find hfind
      obtain ⟨q, p', hset, hupdate, hsound, hserves, helse, hwatch, hloses⟩ :=
        h.setAndUpdate (hcovers.weaken _) hc hkept
          (fun hidle => Or.inl (hcovers.queued_of_idle hc hkept hidle)) ev ans
      refine ⟨p', .ok (), ?_, hserves, .modified c.key ev a q hfind hsound ⟨hwatch, ?_⟩ hloses⟩
      · simp only [Option.bind_eq_bind, Option.bind_some, hset, hupdate]
      · intro b hb
        exact helse.watch hb

/-- `port__ctl_del`. -/
theorem Sound.ctlDel (h : Sound p packets) (hcovers : CoversBut none p) (ans : Answers)
    (socket : Nat) :
    ∃ p' r, p.ctlDel ans socket = some (p', r) ∧ Serves ans packets p p' ∧
      Controls ans packets p p' (.del socket) r := by
  unfold Port.ctlDel
  cases hfind : p.findSocket socket with
  | none =>
      refine ⟨p, .error .notFound, rfl, ⟨h, hcovers, rfl, fun _ hdrained => hdrained⟩, ?_⟩
      refine .refused _ _ (fun _ => rfl) fun socket' _ hop => ⟨rfl, ?_⟩
      obtain rfl : socket = socket' := by simpa using hop
      exact h.unwatched_iff.mp hfind
  | some a =>
      obtain ⟨c, hc, hkept, rfl⟩ := h.exists_of_find hfind
      obtain ⟨p', hdelete, hsound, hremoves⟩ := h.sockDelete hc hkept ans
      refine ⟨p', .ok (), by simp only [hdelete, Option.map_some], ?_, ?_⟩
      · refine ⟨hsound, hremoves.covers (hcovers.weaken _), hremoves.active, fun _ hdrained => ?_⟩
        intro hpos
        rw [hremoves.active] at hpos
        rw [hremoves.updating, hdrained hpos, List.erase_nil]
      · exact .removed c.key a hfind ⟨hremoves.watch_self, fun b hb => hremoves.watch_of_ne hb⟩

/-- `port_ctl`. -/
theorem Sound.ctlOp (h : Sound p packets) (hcovers : CoversBut none p) (hfresh : p.Fresh ans)
    (op : Ctl) :
    ∃ p' r, p.ctlOp ans op = some (p', r) ∧ Serves ans packets p p' ∧
      Controls ans packets p p' op r := by
  cases op with
  | add socket ev => exact h.ctlAdd hcovers hfresh socket ev
  | mod socket ev => exact h.ctlMod hcovers ans socket ev
  | del socket => exact h.ctlDel hcovers ans socket
  | other =>
      refine ⟨p, .error .invalidParameter, rfl, ⟨h, hcovers, rfl, fun _ hdrained => hdrained⟩, ?_⟩
      exact .refused _ _ (fun _ => rfl) (by simp)

end Port

end FFZKit.Win32.Wepoll
