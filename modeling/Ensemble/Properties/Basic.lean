import Ensemble.Table

/-!
# Properties

Settings as text: at most one value per key, listed by key in the order of code points.
-/

namespace Ensemble

abbrev Properties := Table String String

end Ensemble
