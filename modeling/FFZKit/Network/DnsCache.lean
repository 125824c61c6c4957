import FFZKit.Foundations.History
import FFZKit.Foundations.Transition
import FFZKit.Network.SockUtil

/-!
# The cache of resolved names

`getDomainIP` takes an address as it is, or takes what the cache has for a name, or asks
the system and puts the answer into the cache. Any number of threads do so at once, and
only the cache is locked.

## Implementation notes

A call of `getaddrinfo` is over in the step that returns its answer, which is empty where
it fails. `time(nullptr)` is read as any number, and the host may be resolved differently
at any time. The addresses behind an answer are kept by a `shared_ptr`, so they are values.
-/

namespace FFZKit.Network.DnsCache

open FFZKit.Foundations FFZKit.Foundations.Transition FFZKit.Foundations.History
open FFZKit.Network.SockUtil (Family)

/-- `sockaddr_storage` -/
structure SockAddr where
  family : Family
  ip : Nat
  port : Nat
  deriving DecidableEq, Repr

/-- `addrinfo` -/
structure AddrInfo where
  family : Family
  socktype : Int
  protocol : Int
  addr : SockAddr
  deriving DecidableEq, Repr

/-- The arguments of `SockUtil::getDomainIP`. -/
structure Request where
  host : String
  port : Nat
  family : Family
  socktype : Int
  protocol : Int
  expireSec : Int
  deriving DecidableEq, Repr

structure DnsItem where
  answer : List AddrInfo
  createTime : Int
  deriving DecidableEq, Repr

/-- The condition of `getPreferredAddress`. -/
def Request.wants (c : Request) (a : AddrInfo) : Bool :=
  a.family = c.family && a.socktype = c.socktype && a.protocol = c.protocol

def getPreferredAddress (c : Request) (answer : List AddrInfo) : Option AddrInfo :=
  (answer.find? c.wants).or answer.head?

/-- The end of `SockUtil::getDomainIP`. -/
def setPort (port : Nat) (addr : SockAddr) : SockAddr :=
  match addr.family with
  | .inet | .inet6 => { addr with port := port }
  | .other => addr

/-- What a call returns that has an answer for its host. -/
def Request.result (c : Request) (answer : List AddrInfo) : Option SockAddr :=
  (getPreferredAddress c answer).map fun a => setPort c.port a.addr

/-- The address comes from the host itself, from the cache at a time, or from the system. -/
inductive Source
  | literal
  | cached (now : Int)
  | asked
  deriving DecidableEq, Repr

/-- The system answered a thread; an answer was put into the cache at a time; a call
returned. -/
inductive Event (ι : Type*)
  | resolved (i : ι) (host : String) (answer : List AddrInfo)
  | stored (host : String) (answer : List AddrInfo) (time : Int)
  | returned (i : ι) (c : Request) (source : Source) (result : Option SockAddr)

/-- Where a call is: in `getSystemDomainIP`; behind it with its answer; behind
`setCacheDomainIP`. -/
inductive Phase
  | idle
  | resolving (c : Request)
  | answered (c : Request) (answer : List AddrInfo)
  | serving (c : Request) (answer : List AddrInfo)
  deriving DecidableEq, Repr

structure Resolver (ι : Type*) where
  phases : ι → Phase
  cache : String → Option DnsItem
  trace : List (Event ι)

/-- The steps of a call: up to the end of `getCacheDomainIP`, which reads the time; the
system answers; the call fails; `setCacheDomainIP`, which reads the time; the return. -/
inductive Action (ι : Type*)
  | ask (i : ι) (c : Request) (now : Int)
  | resolve (i : ι) (answer : List AddrInfo)
  | fail (i : ι)
  | store (i : ι) (now : Int)
  | serve (i : ι)

namespace Resolver

variable {ι : Type*} [DecidableEq ι]

def init : Resolver ι where
  phases := fun _ => .idle
  cache := fun _ => none
  trace := []

def goto (s : Resolver ι) (i : ι) (phase : Phase) : Resolver ι :=
  { s with phases := Function.update s.phases i phase }

def note (s : Resolver ι) (event : Event ι) : Resolver ι :=
  { s with trace := s.trace ++ [event] }

def setCache (s : Resolver ι) (host : String) (item : Option DnsItem) : Resolver ι :=
  { s with cache := Function.update s.cache host item }

/-- The call of a thread returns. -/
def leave (s : Resolver ι) (i : ι) (c : Request) (source : Source) (result : Option SockAddr) :
    Resolver ι :=
  (s.note (.returned i c source result)).goto i .idle

/-- `getCacheDomainIP` in thread `i`, which erases what has expired. -/
def getCacheDomainIP (s : Resolver ι) (i : ι) (c : Request) (now : Int) : Resolver ι :=
  match s.cache c.host with
  | none => s.goto i (.resolving c)
  | some item =>
      if item.createTime + c.expireSec < now then
        (s.setCache c.host none).goto i (.resolving c)
      else s.leave i c (.cached now) (c.result item.answer)

/-- One step, where `numeric` is `make_sockaddr` of a host, unless it throws. -/
def step (numeric : String → Option SockAddr) (s : Resolver ι) :
    Action ι → Option (Resolver ι)
  | .ask i c now =>
      if s.phases i = .idle then
        match numeric c.host with
        | some a => some (s.leave i c .literal (some (setPort c.port a)))
        | none => some (s.getCacheDomainIP i c now)
      else none
  | .resolve i answer =>
      match s.phases i with
      | .resolving c => some ((s.note (.resolved i c.host answer)).goto i (.answered c answer))
      | _ => none
  | .fail i =>
      match s.phases i with
      | .answered c [] => some (s.leave i c .asked none)
      | _ => none
  | .store i now =>
      match s.phases i with
      | .answered c (a :: answer) =>
          some (((s.note (.stored c.host (a :: answer) now)).setCache c.host
            (some ⟨a :: answer, now⟩)).goto i (.serving c (a :: answer)))
      | _ => none
  | .serve i =>
      match s.phases i with
      | .serving c answer => some (s.leave i c .asked (c.result answer))
      | _ => none

end Resolver

section Chosen

variable {ι : Type*} {trace : List (Event ι)} {event : Event ι} {host : String}
  {answer : List AddrInfo} {time : Int} {i : ι} {c : Request}

/-- A result is an address of the answer, and one that the call wants where there is one. -/
def Chosen (c : Request) (answer : List AddrInfo) (result : Option SockAddr) : Prop :=
  ∃ a ∈ answer, result = some (setPort c.port a.addr) ∧
    ((∃ b ∈ answer, c.wants b = true) → c.wants a = true)

theorem chosen_result (h : answer ≠ []) (c : Request) : Chosen c answer (c.result answer) := by
  cases hfind : answer.find? c.wants with
  | some a =>
      refine ⟨a, List.mem_of_find?_eq_some hfind, ?_, fun _ => List.find?_some hfind⟩
      rw [Request.result, getPreferredAddress, hfind]
      rfl
  | none =>
      obtain ⟨a, rest, rfl⟩ := List.exists_cons_of_ne_nil h
      refine ⟨a, List.mem_cons_self, ?_, ?_⟩
      · rw [Request.result, getPreferredAddress, hfind]
        rfl
      · rintro ⟨b, hb, hwants⟩
        exact absurd hwants (List.find?_eq_none.mp hfind b hb)

/-- The answer was put into the cache last for its host, and the system gave it before. -/
def LastStored (trace : List (Event ι)) (host : String) (answer : List AddrInfo) (time : Int) :
    Prop :=
  ∃ front back, trace = front ++ .stored host answer time :: back ∧
    (∀ other t, .stored host other t ∉ back) ∧ ∃ j, .resolved j host answer ∈ front

/-- The system gave the answer to the call that the thread is in. -/
def Pending (trace : List (Event ι)) (i : ι) (host : String) (answer : List AddrInfo) : Prop :=
  ∃ front back, trace = front ++ .resolved i host answer :: back ∧
    ∀ c source result, .returned i c source result ∉ back

theorem LastStored.snoc (h : LastStored trace host answer time)
    (hother : ∀ other t, event ≠ .stored host other t) :
    LastStored (trace ++ [event]) host answer time := by
  obtain ⟨front, back, rfl, hlast, hresolved⟩ := h
  refine ⟨front, back ++ [event], List.append_assoc _ _ _, ?_, hresolved⟩
  intro other t hmem
  rcases List.mem_append.mp hmem with hback | hevent
  · exact hlast other t hback
  · exact hother other t (List.mem_singleton.mp hevent).symm

theorem Pending.snoc (h : Pending trace i host answer)
    (hother : ∀ c source result, event ≠ .returned i c source result) :
    Pending (trace ++ [event]) i host answer := by
  obtain ⟨front, back, rfl, hback⟩ := h
  refine ⟨front, back ++ [event], List.append_assoc _ _ _, ?_⟩
  intro c source result hmem
  rcases List.mem_append.mp hmem with hmem | hevent
  · exact hback c source result hmem
  · exact hother c source result (List.mem_singleton.mp hevent).symm

theorem Pending.mem (h : Pending trace i host answer) : .resolved i host answer ∈ trace := by
  obtain ⟨front, back, rfl, _⟩ := h
  exact List.mem_append_right _ List.mem_cons_self

/-- What an event tells is borne out by the events before it. -/
def Justified (numeric : String → Option SockAddr) (front : List (Event ι)) : Event ι → Prop
  | .resolved _ _ _ => True
  | .stored host answer _ => answer ≠ [] ∧ ∃ i, .resolved i host answer ∈ front
  | .returned _ c .literal result =>
      ∃ a, numeric c.host = some a ∧ result = some (setPort c.port a)
  | .returned _ c (.cached now) result =>
      ∃ answer time, LastStored front c.host answer time ∧ now ≤ time + c.expireSec ∧
        Chosen c answer result
  | .returned i c .asked result =>
      ∃ answer, Pending front i c.host answer ∧
        (answer = [] ∧ result = none ∨ Chosen c answer result)

end Chosen

section Runs

variable {ι : Type*} [DecidableEq ι] {numeric : String → Option SockAddr} {s s' : Resolver ι}
  {i : ι} {c : Request} {answer : List AddrInfo} {now : Int}

namespace Resolver

/-- The events are justified, the cache has what was stored last, and a call that has an
answer got it itself. -/
structure Sound (numeric : String → Option SockAddr) (s : Resolver ι) : Prop where
  trace : Throughout (Justified numeric) s.trace
  cache : ∀ host item, s.cache host = some item →
    item.answer ≠ [] ∧ LastStored s.trace host item.answer item.createTime
  answered : ∀ i c answer, s.phases i = .answered c answer → Pending s.trace i c.host answer
  serving : ∀ i c answer, s.phases i = .serving c answer →
    answer ≠ [] ∧ Pending s.trace i c.host answer

omit [DecidableEq ι] in
theorem sound_init : (init : Resolver ι).Sound numeric where
  trace := throughout_nil
  cache := fun _ _ h => nomatch h
  answered := fun _ _ _ h => nomatch h
  serving := fun _ _ _ h => nomatch h

/-- A thread tells an event, after which the cache and the thread itself are as they should be. -/
theorem Sound.of_event (h : s.Sound numeric) {event : Event ι} {phase : Phase}
    (trace : s'.trace = s.trace ++ [event]) (phases : s'.phases = (s.goto i phase).phases)
    (justified : Justified numeric s.trace event)
    (own : ∀ j c source result, event = .returned j c source result → j = i)
    (cache : ∀ host item, s'.cache host = some item →
      item.answer ≠ [] ∧ LastStored (s.trace ++ [event]) host item.answer item.createTime)
    (answered : ∀ c answer, phase = .answered c answer →
      Pending (s.trace ++ [event]) i c.host answer)
    (serving : ∀ c answer, phase = .serving c answer →
      answer ≠ [] ∧ Pending (s.trace ++ [event]) i c.host answer) : s'.Sound numeric where
  trace := trace ▸ h.trace.snoc justified
  cache := trace ▸ cache
  answered := by
    intro j c answer hj
    rw [trace]
    rw [phases] at hj
    by_cases hji : j = i
    · subst hji
      exact answered c answer ((Function.update_self _ _ _).symm.trans hj)
    · have hj' : s.phases j = .answered c answer := (Function.update_of_ne hji _ _).symm.trans hj
      apply (h.answered j c answer hj').snoc
      exact fun c source result he => hji (own j c source result he)
  serving := by
    intro j c answer hj
    rw [trace]
    rw [phases] at hj
    by_cases hji : j = i
    · subst hji
      exact serving c answer ((Function.update_self _ _ _).symm.trans hj)
    · have hj' : s.phases j = .serving c answer := (Function.update_of_ne hji _ _).symm.trans hj
      obtain ⟨hne, hpending⟩ := h.serving j c answer hj'
      exact ⟨hne, hpending.snoc fun c source result he => hji (own j c source result he)⟩

omit [DecidableEq ι] in
/-- What is not stored keeps what is. -/
theorem Sound.cache_snoc (h : s.Sound numeric) {event : Event ι}
    (hother : ∀ host other t, event ≠ .stored host other t) :
    ∀ host item, s.cache host = some item →
      item.answer ≠ [] ∧ LastStored (s.trace ++ [event]) host item.answer item.createTime := by
  intro host item hitem
  obtain ⟨hne, hlast⟩ := h.cache host item hitem
  exact ⟨hne, hlast.snoc (hother host)⟩

theorem Sound.leave (h : s.Sound numeric) {source : Source} {result : Option SockAddr}
    (justified : Justified numeric s.trace (.returned i c source result)) :
    (s.leave i c source result).Sound numeric := by
  have htrace : (s.leave i c source result).trace =
      s.trace ++ [.returned i c source result] := rfl
  apply h.of_event htrace rfl justified
  case own =>
    intro j c source result he
    cases he
    rfl
  case cache => exact h.cache_snoc fun _ _ _ he => nomatch he
  case answered => exact fun _ _ he => nomatch he
  case serving => exact fun _ _ he => nomatch he

/-- A call that has to ask may erase an item. -/
theorem Sound.erase (h : s.Sound numeric) {cache : String → Option DnsItem}
    (hcache : ∀ host item, cache host = some item → s.cache host = some item) :
    ({ s with cache := cache }.goto i (.resolving c)).Sound numeric where
  trace := h.trace
  cache := fun host item hitem => h.cache host item (hcache host item hitem)
  answered := by
    intro j c' answer hj
    by_cases hji : j = i
    · subst hji
      cases (Function.update_self _ _ _).symm.trans hj
    · exact h.answered j c' answer ((Function.update_of_ne hji _ _).symm.trans hj)
  serving := by
    intro j c' answer hj
    by_cases hji : j = i
    · subst hji
      cases (Function.update_self _ _ _).symm.trans hj
    · exact h.serving j c' answer ((Function.update_of_ne hji _ _).symm.trans hj)

theorem Sound.getCacheDomainIP (h : s.Sound numeric) :
    (s.getCacheDomainIP i c now).Sound numeric := by
  unfold Resolver.getCacheDomainIP
  split
  · exact h.erase fun _ _ hitem => hitem
  · rename_i item hitem
    split
    · apply h.erase
      intro host other hother
      by_cases hhost : host = c.host
      · subst hhost
        cases (Function.update_self _ _ _).symm.trans hother
      · exact (Function.update_of_ne hhost _ _).symm.trans hother
    · rename_i hfresh
      obtain ⟨hne, hlast⟩ := h.cache c.host item hitem
      exact h.leave ⟨item.answer, item.createTime, hlast, Int.not_lt.mp hfresh,
        chosen_result hne c⟩

theorem Sound.resolve (h : s.Sound numeric) :
    ((s.note (.resolved i c.host answer)).goto i (.answered c answer)).Sound numeric := by
  have htrace : ((s.note (.resolved i c.host answer)).goto i (.answered c answer)).trace =
      s.trace ++ [.resolved i c.host answer] := rfl
  apply h.of_event htrace rfl trivial
  case own => exact fun _ _ _ _ he => nomatch he
  case cache => exact h.cache_snoc fun _ _ _ he => nomatch he
  case answered =>
    intro c' answer' he
    cases he
    exact ⟨s.trace, [], rfl, fun _ _ _ => List.not_mem_nil⟩
  case serving => exact fun _ _ he => nomatch he

theorem Sound.store (h : s.Sound numeric) (hi : s.phases i = .answered c answer)
    (hne : answer ≠ []) :
    (((s.note (.stored c.host answer now)).setCache c.host (some ⟨answer, now⟩)).goto i
      (.serving c answer)).Sound numeric := by
  have hpending := h.answered i c answer hi
  have hkept : Pending (s.trace ++ [.stored c.host answer now]) i c.host answer :=
    hpending.snoc fun _ _ _ he => nomatch he
  have htrace : (((s.note (.stored c.host answer now)).setCache c.host
      (some ⟨answer, now⟩)).goto i (.serving c answer)).trace =
        s.trace ++ [.stored c.host answer now] := rfl
  apply h.of_event htrace rfl ⟨hne, i, hpending.mem⟩
  case own => exact fun _ _ _ _ he => nomatch he
  case cache =>
    intro host item hitem
    by_cases hhost : host = c.host
    · subst hhost
      have hself : Function.update s.cache c.host (some ⟨answer, now⟩) c.host = some item := hitem
      rw [Function.update_self] at hself
      cases hself
      exact ⟨hne, s.trace, [], rfl, fun _ _ => List.not_mem_nil, i, hpending.mem⟩
    · obtain ⟨hne', hlast⟩ :=
        h.cache host item ((Function.update_of_ne hhost _ _).symm.trans hitem)
      refine ⟨hne', hlast.snoc fun other t he => ?_⟩
      cases he
      exact hhost rfl
  case answered => exact fun _ _ he => nomatch he
  case serving =>
    intro c' answer' he
    cases he
    exact ⟨hne, hkept⟩

theorem Sound.step (h : s.Sound numeric) {action : Action ι}
    (hstep : s.step numeric action = some s') : s'.Sound numeric := by
  cases action with
  | ask i c now =>
      obtain ⟨_, hask⟩ := Option.ite_none_right_eq_some.mp hstep
      split at hask
      · rename_i a ha
        cases hask
        exact h.leave ⟨a, ha, rfl⟩
      · cases hask
        exact h.getCacheDomainIP
  | resolve i answer =>
      simp only [Resolver.step] at hstep
      split at hstep
      · cases hstep
        exact h.resolve
      · cases hstep
  | fail i =>
      simp only [Resolver.step] at hstep
      split at hstep
      · rename_i c hi
        cases hstep
        exact h.leave ⟨[], h.answered i c [] hi, Or.inl ⟨rfl, rfl⟩⟩
      · cases hstep
  | store i now =>
      simp only [Resolver.step] at hstep
      split at hstep
      · rename_i c a answer hi
        cases hstep
        exact h.store hi (List.cons_ne_nil a answer)
      · cases hstep
  | serve i =>
      simp only [Resolver.step] at hstep
      split at hstep
      · rename_i c answer hi
        cases hstep
        obtain ⟨hne, hpending⟩ := h.serving i c answer hi
        exact h.leave ⟨answer, hpending, Or.inr (chosen_result hne c)⟩
      · cases hstep

/-- Whatever the threads do in whatever order, a call returns an address that the host is,
or one of the answer that was stored last for its host and is not too old, or one of the
answer that the system gave to the call itself; only a call that got none fails, and such an
answer is never stored. The address is one that the call wants where there is one. -/
theorem answers_justified {actions : List (Action ι)}
    (run : Run (Resolver.step numeric) anyStep init actions s) :
    Throughout (Justified numeric) s.trace := by
  have hsound : s.Sound numeric := by
    apply run.invariant (P := Sound numeric) _ sound_init
    intro s action s' _ hstep h
    exact h.step hstep
  exact hsound.trace

/-- Two threads ask for one host at once. The answer that is stored last is served until it
expires. -/
def askedTwice : List (Action Nat) :=
  let c : Request := ⟨"host", 80, .inet, 1, 6, 60⟩
  let old : AddrInfo := ⟨.inet6, 1, 6, ⟨.inet6, 1, 0⟩⟩
  let new : AddrInfo := ⟨.inet, 1, 6, ⟨.inet, 2, 0⟩⟩
  [.ask 0 c 0, .ask 1 c 0, .resolve 1 [old, new], .resolve 0 [old], .store 1 5, .serve 1,
    .store 0 9, .serve 0, .ask 2 c 69, .ask 2 c 70, .resolve 2 [], .fail 2]

theorem answers_justified_askedTwice :
    ∃ s, Run (Resolver.step fun _ => none) anyStep (init : Resolver Nat) askedTwice s ∧
      Throughout (Justified fun _ => none) s.trace := by
  obtain ⟨s, hs⟩ := Option.isSome_iff_exists.mp
    (show (exec (Resolver.step fun _ => none) (init : Resolver Nat) askedTwice).isSome = true
      by decide)
  have run : Run (Resolver.step fun _ => none) anyStep init askedTwice s :=
    run_of_exec hs fun _ _ _ => trivial
  exact ⟨s, run, answers_justified run⟩

end Resolver

end Runs

end FFZKit.Network.DnsCache
