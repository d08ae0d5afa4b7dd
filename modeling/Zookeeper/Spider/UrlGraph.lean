import Mathlib.Algebra.Ring.Nat
import Mathlib.Logic.Function.Basic
import Zookeeper.Transition

/-!
# The crawler

`UrlGraph::Search` (`spider/URLGraph.cpp`) hands URLs to a number of processor
coroutines by the channel `waitDoing`, and they report back by the channel `evts`: every
link of a page that was fetched, and then that the page is done.

A `Crawl` is the state of the main loop, of all processors and of the two channels, and
every step is one operation on a channel, or a fetch.  The processing function and the
limit are parameters, and whether a fetch succeeds, and with which content, is left to
the steps.
-/

namespace Spider

variable {Url Content : Type} {k : Nat}

/-- `UES_OPEN` and `UES_DONE`. -/
inductive UrlStatus where
  | uesOpen
  | uesDone
deriving DecidableEq, Repr

/-- `UrlEvent`. -/
structure UrlEvent (Url : Type) where
  url : Url
  status : UrlStatus
deriving DecidableEq

/-- The capacity of `waitDoing`. -/
def waitDoingCapacity : Nat := 20

/-- Where a processor stands. -/
inductive Worker (Url : Type) where
  /-- It waits at `waitDoing >> url`. -/
  | idle
  /-- `request.Commit()`. -/
  | fetching (url : Url)
  /-- The links that are still to be posted, and the page. -/
  | posting (urls : List Url) (url : Url)
  /-- A channel was closed. -/
  | ended
deriving DecidableEq

/-- Where the main loop stands. -/
inductive Searcher (Url : Type) where
  /-- It waits at `evts >> evt`. -/
  | receiving
  /-- It waits at `waitDoing << evt.url`. -/
  | sending (url : Url)
  /-- Both channels are closed. -/
  | closed
deriving DecidableEq

/-- `UrlGraph::Search` with `k` processors. -/
structure Crawl (Url Content : Type) (k : Nat) where
  evts : List (UrlEvent Url)
  waitDoing : List Url := []
  worker : Fin k → Worker Url := fun _ => .idle
  main : Searcher Url := .receiving
  /-- The set `pendings`, in the order of insertion. -/
  pendings : List Url := []
  dones : List Url := []
  /-- What processors have taken from `waitDoing`. -/
  taken : List Url := []
  /-- How fetches have ended: with a content, or `request.Bad()`. -/
  fetched : List (Url × Option Content) := []

inductive CrawlAct (Content : Type) (k : Nat) where
  /-- The main loop takes an event. -/
  | receive
  /-- The main loop hands a URL out. -/
  | send
  | take (i : Fin k)
  | fetch (i : Fin k) (content : Option Content)
  /-- A processor posts a link, or that its page is done. -/
  | post (i : Fin k)

namespace Crawl

/-- Only the entry is known. -/
def start (entry : Url) : Crawl Url Content k := { evts := [⟨entry, .uesOpen⟩] }

def setWorker (s : Crawl Url Content k) (i : Fin k) (w : Worker Url) : Crawl Url Content k :=
  { s with worker := Function.update s.worker i w }

/-- An event is put into `evts`. -/
def pushEvt (s : Crawl Url Content k) (url : Url) (status : UrlStatus) : Crawl Url Content k :=
  { s with evts := s.evts ++ [⟨url, status⟩] }

section Step

variable [DecidableEq Url] (processFn : Url → Content → List Url) (limit : Nat)

/-- The main loop deals with an event.  Whether the limit is reached is tested first. -/
def deal (s : Crawl Url Content k) (evt : UrlEvent Url) : Crawl Url Content k :=
  match evt.status with
  | .uesOpen =>
      if (limit = 0 ∨ s.pendings.length < limit) ∧ evt.url ∉ s.pendings then
        { s with main := .sending evt.url }
      else s
  | .uesDone =>
      let dones := if evt.url ∈ s.dones then s.dones else s.dones ++ [evt.url]
      { s with
        dones := dones
        main := if dones.length = s.pendings.length then .closed else .receiving }

/-- The links of a page, as a fetch has ended. -/
def links (url : Url) (content : Option Content) : List Url :=
  match content with
  | some content => processFn url content
  | none => []

def step (s : Crawl Url Content k) :
    CrawlAct Content k → Option (Crawl Url Content k)
  | .receive =>
      match s.main, s.evts with
      | .receiving, evt :: evts => some ({ s with evts := evts }.deal limit evt)
      | _, _ => none
  | .send =>
      match s.main with
      | .sending url =>
          if s.waitDoing.length < waitDoingCapacity then
            some { s with
              main := .receiving
              waitDoing := s.waitDoing ++ [url]
              pendings := s.pendings ++ [url] }
          else none
      | _ => none
  | .take i =>
      match s.worker i, s.main, s.waitDoing with
      | .idle, .closed, _ => some (s.setWorker i .ended)
      | .idle, _, url :: waitDoing =>
          some ({ s with waitDoing := waitDoing, taken := s.taken ++ [url] }.setWorker i
            (.fetching url))
      | _, _, _ => none
  | .fetch i content =>
      match s.worker i with
      | .fetching url =>
          some ({ s with fetched := s.fetched ++ [(url, content)] }.setWorker i
            (.posting (links processFn url content) url))
      | _ => none
  | .post i =>
      match s.worker i, s.main with
      | .posting _ _, .closed => some (s.setWorker i .ended)
      | .posting (link :: urls) url, _ =>
          some ((s.pushEvt link .uesOpen).setWorker i (.posting urls url))
      | .posting [] url, _ =>
          some ((s.pushEvt url .uesDone).setWorker i .idle)
      | _, _ => none

end Step

end Crawl

/-- `UrlGraph::Search` from an entry. -/
def search [DecidableEq Url] (processFn : Url → Content → List Url) (limit : Nat) (entry : Url)
    (k : Nat) : Transition.System (Crawl Url Content k) (CrawlAct Content k) :=
  Transition.ofStep (fun s => s = Crawl.start entry) (Crawl.step processFn limit)

end Spider
