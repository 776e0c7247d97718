import Playhead.Log.Json
import Playhead.Main
import Playhead.Proofs.Column.Bounds
import Playhead.Proofs.Column.Comparison
import Playhead.Proofs.Column.Count
import Playhead.Proofs.Column.Numbers
import Playhead.Proofs.Corrections
import Playhead.Proofs.Indexer.Refusals
import Playhead.Proofs.Lasting
import Playhead.Proofs.Log.Session
import Playhead.Proofs.Persistence
import Playhead.Proofs.RoundTrip
import Playhead.Proofs.Seeking
import Playhead.Proofs.Shape
import Playhead.Proofs.Storage
import Playhead.Proofs.Thing.Interrupted
import Playhead.Proofs.Truncation
import Playhead.Proofs.Walk
import Playhead.Proofs.Wire.Grouping
import Playhead.Proofs.Wire.Stream
import Playhead.Proofs.World.Session
