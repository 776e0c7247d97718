import Playhead.Client
import Playhead.Text.Fixed

/-!
# What is printed about a client

After each seek four lines tell what the client shows now (`Playhead.Client.report`).
-/

namespace Playhead.Client

/-- The lines about a client that has been taken to a moment by so many packets. -/
def report (client : Client) (t : Time) (emitted : Nat) : List String :=
  let dimension := (client.dimension.map (·.name)).getD "-"
  let rain := Text.fixed 2 client.rainLevel
  let thunder := Text.fixed 2 client.thunderLevel
  [s!"t={t}ms emitted={emitted} dimension={dimension}",
    s!"  entities={client.entities.size} chunks={client.chunks.size} " ++
      s!"tags={client.corrections.size}",
    s!"  raining={client.raining} rain={rain} thunder={thunder} time_of_day={client.timeOfDay}",
    s!"  view_center=({client.viewCenter.1}, {client.viewCenter.2}) " ++
      s!"view_distance={client.viewDistance}"]

end Playhead.Client
