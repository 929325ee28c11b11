import Sofab.Boundary
import Sofab.Generated.Decoder

/-!
# Fields that a reader does not know

A generated reader binds the fields of its schema and lets the others pass. So a writer whose schema
has more fields is read as if it had written only those that the reader knows.
-/

namespace Sofab.Generated

end Sofab.Generated
