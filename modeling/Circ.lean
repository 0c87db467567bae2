import Circ.Tagged
import Circ.Protocol.Safety
import Circ.Protocol.Sequential
import Circ.Slot.TagRace
import Circ.Api.NewMany
import Circ.Api.Weak
import Circ.Harris.Map
import Circ.Queue.Refinement
