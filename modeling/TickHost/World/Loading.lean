import TickHost.World

/-!
How source texts reach a host. A batch is handed to the fetcher of the host, which answers it at
once, keeps it for later or gives it up. The answer to an include is posted to the host as a
command; the answer to a load becomes the source text. A host without a fetcher is answered at
once that there is none.
-/

namespace TickHost.World

/-- The answer to a load: the text that the host will run, reported under its present origin. -/
def scriptArrived (w : World) (key : Nat) (urls : List Url) (results : FetchResults) : World :=
  let origin := (w.host key).script.origin
  match urls.head?.bind results.get? with
  | some (.ok contents) =>
      (w.updateHost key fun h => { h with script := ⟨contents, origin⟩ }).publish key
        (.scriptLoaded origin) .loader
  | _ => w.publish key (.errorLoadingScript origin) .loader

/-- Hand the answer of a batch to the host that asked for it. A host that is gone takes no more
commands. -/
def answerFetch (w : World) (key : Nat) (urls : List Url) (purpose : FetchPurpose)
    (results : FetchResults) : World :=
  match purpose with
  | .script => w.scriptArrived key urls results
  | .includeAll callback =>
      if (w.host key).alive then
        w.updateHost key fun h => h.post (.includeReady urls callback results)
      else w

/-- Fetch a batch without waiting for it. -/
def fetch (w : World) (key : Nat) (urls : List Url) (purpose : FetchPurpose) : World :=
  match (w.host key).fetcher with
  | none => w.answerFetch key urls purpose (FetchResults.unconfigured urls)
  | some fetcher =>
      let w := w.note (.fetching (urls.map Url.render))
      if fetcher.silent then w
      else if fetcher.deferred then
        { w with fetches := w.fetches ++ [⟨key, fetcher, urls, purpose⟩] }
      else w.answerFetch key urls purpose (fetcher.results w.disk w.remote urls)

/-- Fetch a batch and wait for it. -/
def fetchNow (w : World) (key : Nat) (urls : List Url) : FetchResults × World :=
  match (w.host key).fetcher with
  | none => (FetchResults.unconfigured urls, w)
  | some fetcher =>
      (fetcher.resultsNow w.disk w.remote urls, w.note (.fetchingNow (urls.map Url.render)))

/-- Answer a fetch that was kept. -/
def complete (w : World) (index : Nat) : World × Answer :=
  match w.fetches[index]? with
  | none => (w, .missing .fetch)
  | some f =>
      let results := f.fetcher.results w.disk w.remote f.urls
      let w := { w with fetches := w.fetches.eraseIdx index }
      (w.answerFetch f.host f.urls f.purpose results, .done)

/-- Give up a fetch that was kept. -/
def forget (w : World) (index : Nat) : World × Answer :=
  match w.fetches[index]? with
  | none => (w, .missing .fetch)
  | some _ => ({ w with fetches := w.fetches.eraseIdx index }, .done)

/-- The URLs that references of a script mean. Those that mean nothing are reported. -/
def resolveAll (w : World) (key : Nat) (references : List String) : List Url × World :=
  references.foldl (fun (urls, w) reference =>
    match (w.host key).resolve? reference with
    | some url => (urls ++ [url], w)
    | none => (urls, w.publish key (.errorLoadingScript reference) .loader)) ([], w)

/-- Ask the application to start another script. -/
def load (w : World) (key : Nat) (reference : String) : World :=
  if w.isStopping key then w
  else
    match (w.host key).resolve? reference with
    | some url => w.publish key (.loadScriptRequest url.render false) .script
    | none => w

/-- Read the source text of a host from the disk, under its path as the origin. -/
def loadFile (w : World) (key : Nat) (url : Url) (reference : String) : World :=
  match url.toPath? with
  | none => w.publish key (.errorLoadingScript reference) .loader
  | some path =>
      let origin := String.ofList (Utf8.decodeLossy path)
      match w.disk.readText path with
      | .ok contents =>
          (w.updateHost key fun h => { h with script := ⟨contents, origin⟩ }).publish key
            (.scriptLoaded origin) .loader
      | .error _ =>
          (w.updateHost key fun h => { h with script := ⟨h.script.contents, origin⟩ }).publish key
            (.errorLoadingScript origin) .loader

/-- Replace the source text of a host that is not running. A scheme of one letter is the drive of
a local path; files are read at once, everything else is fetched. -/
def loadUrl (w : World) (key : Nat) (reference : String) : World × Answer :=
  if (w.host key).running then (w, .refused .alreadyRunning)
  else
    let w := w.updateHost key fun h => { h with script := ⟨h.script.contents, reference⟩ }
    let url := match Url.parse? reference with
      | some url => if 1 < url.scheme.length then url else Url.ofPathText reference
      | none => Url.ofPathText reference
    if url.scheme = "file" then (w.loadFile key url reference, .done)
    else (w.fetch key [url] .script, .done)

end TickHost.World
