import LiveMarkup.Rendering.Keyring
import LiveMarkup.Rendering.Realization
/-!
# Rendering

A `Renderer` is a document with all that is needed to render into it: the compiled templates, a
cache for each container, and the caches that belong to no container. Rendering a value into a
container shows an invocation with the container's cache, and exchanges the content of the container
only if another block is to be shown than last time. A value that cannot be rendered changes nothing
but the set of compiled templates.
-/

namespace LiveMarkup

open Markup (Namespace)

/-- A document and what is kept to render into it. -/
structure Renderer where
  document : Document
  catalogue : Catalogue
  containers : List (NodeId × Cache)
  /-- The caches that belong to no container, by their numbers. -/
  detached : Array Cache
  keyring : Keyring
  /-- The nodes that the host holds. -/
  hostNodes : List NodeId
  /-- The caches without container that the host holds. -/
  hostCaches : List CacheId
deriving Inhabited

namespace Renderer

/-- An empty document. -/
def empty : Renderer :=
  ⟨.empty, .empty, [], #[], .empty, [], []⟩

/-- How many changes have been made. Taking a marker off content counts as one. -/
def mutations (r : Renderer) : Nat :=
  r.document.mutations + r.catalogue.attributesTaken

/-- Changes the document. -/
def edit (r : Renderer) (f : Document → Document) : Renderer :=
  { r with document := f r.document }

/-- The cache of a container. -/
def cacheOf (r : Renderer) (container : NodeId) : Cache :=
  (r.containers.lookup container).getD .empty

/-- The containers other than one, with their caches. -/
def otherContainers (r : Renderer) (container : NodeId) : List (NodeId × Cache) :=
  r.containers.filter (·.1 != container)

/-- Keeps the cache of a container. -/
def setCacheOf (r : Renderer) (container : NodeId) (cache : Cache) : Renderer :=
  { r with containers := (container, cache) :: r.otherContainers container }

/-- A cache that belongs to no container. -/
def detachedCache (r : Renderer) (id : CacheId) : Cache :=
  r.detached.getD id.index .empty

/-- The caches without container that are held by the host or by the keyring. -/
def detachedHeld (r : Renderer) : List CacheId :=
  r.hostCaches ++ r.keyring.caches

/-- What is held by the host and by the caches without container, other than one that is in use, and
by each container but the one that is in use. -/
def custody (r : Renderer) (container : Option NodeId) (cache : Option CacheId) : Custody :=
  { nodes := container.toList ++ r.hostNodes
      ++ (r.detachedHeld.filter fun id => some id != cache).flatMap fun id =>
        (r.detachedCache id).held
    containers := r.containers.filter fun c => some c.1 != container }

/-- Lets go of all that is not held. -/
def settle (r : Renderer) : Renderer :=
  r.edit fun d => d.release (r.custody none none)

/-- Makes a block the content of a container, unless it is the block that was shown there last. -/
def mount (r : Renderer) (container : NodeId) (cache : Cache) (block : Block) : Renderer :=
  if cache.root = some block then r.setCacheOf container cache
  else
    let cleared := (r.document.setText container "").release
      ((r.custody container none).holding (block.held ++ cache.held))
    let inserted := cleared.access block .insert
    { r with document := inserted.2.append container inserted.1 }.setCacheOf container
      { cache with root := some block }

/-- Shows a value in a container: an invocation, a node or a block. -/
def render (r : Renderer) (container : NodeId) (value : Value) : Except Failure Unit × Renderer :=
  match value with
  | .invocation space template values =>
    match r.catalogue.planUse space template values with
    | (.error e, catalogue) => (.error e, { r with catalogue })
    | (.ok use, catalogue) =>
      let custody := (r.custody container none).holding value.held
      let shown := (r.cacheOf container).realize custody r.document use
      (.ok (), { r with catalogue, document := shown.2.2 }.mount container shown.2.1 shown.1)
  | .node n => (.ok (), r.mount container (r.cacheOf container) (.single n))
  | .block block => (.ok (), r.mount container (r.cacheOf container) block)
  | other => (.error (.notRenderable other.shape), r)

/-- Shows an invocation with a cache, without putting it anywhere. -/
def showWith (r : Renderer) (cache : Cache) (custody : Custody) (space : Namespace)
    (template : Template) (values : List Value) : Except Failure (Block × Cache) × Renderer :=
  match r.catalogue.planUse space template values with
  | (.error e, catalogue) => (.error e, { r with catalogue })
  | (.ok use, catalogue) =>
    let shown := cache.realize (custody.holding (heldByValues values)) r.document use
    (.ok (shown.1, shown.2.1), { r with catalogue, document := shown.2.2 })

/-- Shows an invocation once, without putting it anywhere. -/
def instantiate (r : Renderer) (space : Namespace) (template : Template) (values : List Value) :
    Except Failure Block × Renderer :=
  match r.showWith .empty (r.custody none none) space template values with
  | (.error e, r) => (.error e, r)
  | (.ok shown, r) => (.ok shown.1, r)

/-- Shows an invocation with a cache that belongs to no container, without putting it anywhere. -/
def renderDetached (r : Renderer) (id : CacheId) (space : Namespace) (template : Template)
    (values : List Value) : Except Failure Block × Renderer :=
  match r.showWith (r.detachedCache id) (r.custody none (some id)) space template values with
  | (.error e, r) => (.error e, r)
  | (.ok shown, r) =>
    (.ok shown.1, { r with detached := r.detached.modify id.index fun _ => shown.2 })

/-- Makes a key to keep caches under. -/
def newKey (r : Renderer) : Key × Renderer :=
  let made := r.keyring.newKey
  (made.1, { r with keyring := made.2 })

/-- Lets a key go. -/
def dropKey (r : Renderer) (key : Key) : Renderer :=
  { r with keyring := r.keyring.dropKey key }

/-- The cache for a key and a name, which is made when it is first asked for. -/
def cacheFor (r : Renderer) (key : Key) (name : String) : CacheId × Renderer :=
  let fresh : CacheId := ⟨r.detached.size⟩
  let found := r.keyring.cacheFor key name fresh
  (found.1,
    { r with
      keyring := found.2
      detached := if found.1 = fresh then r.detached.push .empty else r.detached })

/-- Compiles a template. -/
def compile (r : Renderer) (space : Namespace) (template : Template) :
    Except Failure Compiled × Renderer :=
  let compiled := r.catalogue.compile space template
  (compiled.1, { r with catalogue := compiled.2 })

end Renderer

end LiveMarkup
